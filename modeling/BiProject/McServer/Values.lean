import BiProject.McServer.Table
import Mathlib.Data.Finset.Card
import Mathlib.Data.Finset.Dedup

/-!
# What a set leaves for a get

An item is laid out for the first value of its key: its length and the printed suffix stay when a later set writes
into it. The book of a server tells for every key the value its item was laid out for and the last one that was
written; `mc_set_key_ext` writes it, whichever way it takes.
-/

namespace BiProject.McServer
set_option autoImplicit false
open BiProject.Lib.Chains

/-- The item was laid out for the value `first`, and holds `last`. -/
structure Item.Stores (it : Item) (first last : List UInt8) : Prop where
  nbytes : it.nbytes = first.length + 2
  data : it.load it.dataOff last.length = last
  room : sizeofItem + it.dataOff + vLength + 2 ≤ mcSlabObjSz

/-- For every key what its item was laid out for and what it holds. -/
abbrev Book := List UInt8 → Option (List UInt8 × List UInt8)

/-- The server holds what its book tells. -/
structure Holds (hash : List UInt8 → Nat) (σ : Server) (chain : Nat → List Addr) (book : Book) : Prop where
  table : TableOk hash σ chain
  flags : ∀ b, ∀ a ∈ chain b, (σ.items a).linked = true ∧ (σ.items a).slabbed = false
  absent : ∀ k, book k = none → ∀ a ∈ chain (bucketOf (hash k)), σ.key a ≠ k
  stored : ∀ k first last, book k = some (first, last) →
    ∃ a ∈ chain (bucketOf (hash k)), σ.key a = k ∧ (σ.items a).Stores first last

/-! ## The bytes of an item -/

/-- The suffix of a value of at most `V_LENGTH` bytes has at most seven. -/
theorem suffixText_length {n : Nat} (short : n ≤ vLength) : (suffixText 0 (n + 2)).length ≤ 7 := by
  have all : ∀ n < vLength + 1, (suffixText 0 (n + 2)).length ≤ 7 := by decide
  exact all n (Nat.lt_succ_of_le short)

/-- What `mc_set_key_ext` leaves in an object it has got. -/
def freshItem (it : Item) (key : List UInt8) (nkey : Nat) (data : List UInt8) (nbytes hv : Nat) : Item :=
  let it := itemInit it key nkey 0 (nbytes + 2)
  { it.memcpy it.dataOff (data.take nbytes) with hv := hv, linked := true }

section
variable (it : Item) {key data first last : List UInt8} (hv : Nat)

theorem itemInit_dataOff (short : data.length ≤ vLength) :
    (itemInit it key keyLength 0 (data.length + 2)).dataOff = keyLength + 1 + (suffixText 0 (data.length + 2)).length := by
  have fits := suffixText_length short
  have mod : (suffixText 0 (data.length + 2)).length % 256 = (suffixText 0 (data.length + 2)).length := Nat.mod_eq_of_lt (by omega)
  simp [Item.dataOff, Item.casSize, itemInit, Item.memcpy, keyLength, mod]

theorem freshItem_key (length : key.length = keyLength) (short : data.length ≤ vLength) :
    (freshItem it key keyLength data data.length hv).key = key := by
  -- the suffix and the value lie behind the key
  have behind : 0 + keyLength ≤ (itemInit it key keyLength 0 (data.length + 2)).dataOff := by
    rw [itemInit_dataOff it short]
    omega
  have whole : key.take keyLength = key := List.take_of_length_le (Nat.le_of_eq length)
  change ((itemInit it key keyLength 0 (data.length + 2)).memcpy _ (data.take data.length)).load 0 keyLength = key
  rw [Item.load_memcpy_apart _ _ (Or.inl behind)]
  change ((Item.memcpy _ 0 (key.take keyLength)).memcpy (keyLength + 1) _).load 0 keyLength = key
  rw [Item.load_memcpy_apart _ _ (Or.inl (by omega)), whole]
  conv_lhs => rw [← length]
  exact Item.load_memcpy _ 0 key

/-- **The fresh path** leaves the value it was given. -/
theorem freshItem_stores (short : data.length ≤ vLength) : (freshItem it key keyLength data data.length hv).Stores data data := by
  have fits := suffixText_length short
  refine ⟨rfl, ?_, ?_⟩
  · change ((itemInit it key keyLength 0 (data.length + 2)).memcpy _ (data.take data.length)).load
      (itemInit it key keyLength 0 (data.length + 2)).dataOff data.length = data
    rw [List.take_length]
    exact Item.load_memcpy _ _ data
  · change sizeofItem + (itemInit it key keyLength 0 (data.length + 2)).dataOff + vLength + 2 ≤ mcSlabObjSz
    rw [itemInit_dataOff it short]
    unfold sizeofItem keyLength vLength mcSlabObjSz
    omega

/-- **The path in place** leaves the value, under the length of the one before. -/
theorem Item.Stores.inPlace {it : Item} (stores : it.Stores first last) (data : List UInt8) :
    (it.memcpy it.dataOff (data.take data.length)).Stores first data := by
  refine ⟨stores.nbytes, ?_, stores.room⟩
  change (it.memcpy it.dataOff (data.take data.length)).load it.dataOff data.length = data
  rw [List.take_length]
  exact it.load_memcpy it.dataOff data

/-- Another link does not change what an item stores. -/
theorem Item.Stores.withNext {it : Item} (stores : it.Stores first last) (p : Option Addr) :
    Item.Stores { it with hNext := p } first last := ⟨stores.nbytes, stores.data, stores.room⟩

/-- It does not reach the key. -/
theorem Item.inPlace_key (it : Item) (data : List UInt8) : (it.memcpy it.dataOff data).key = it.key := by
  refine it.load_memcpy_apart data (Or.inl ?_)
  change it.keyOff + it.nkey ≤ it.dataOff
  unfold Item.keyOff Item.dataOff
  omega

end

/-! ## One set -/

section
variable {hash : List UInt8 → Nat} {σ : Server} {chain : Nat → List Addr} {book : Book} {a : Addr} {key data first last : List UInt8}
  {fuel : Nat}

/-- The item of a key that is in the book is found. -/
theorem Holds.find (holds : Holds hash σ chain book) (length : key.length = keyLength)
    (enough : (chain (bucketOf (hash key))).length < fuel) (known : book key = some (first, last)) :
    ∃ a ∈ chain (bucketOf (hash key)), assocFind fuel σ key keyLength (hash key) = some (some a) ∧ σ.key a = key ∧
      (σ.items a).Stores first last := by
  obtain ⟨a, member, named, stores⟩ := holds.stored key first last known
  refine ⟨a, member, ?_, named, stores⟩
  rw [holds.table.find length enough, holds.table.find?_eq member named]

/-- One that is not in it is not. -/
theorem Holds.find_none (holds : Holds hash σ chain book) (length : key.length = keyLength)
    (enough : (chain (bucketOf (hash key))).length < fuel) (unknown : book key = none) :
    assocFind fuel σ key keyLength (hash key) = some none := by
  rw [holds.table.find length enough]
  simpa using holds.absent key unknown

/-- **A set in place** writes the book. -/
theorem Holds.setInPlace (holds : Holds hash σ chain book) (member : a ∈ chain (bucketOf (hash key))) (named : σ.key a = key)
    (stores : (σ.items a).Stores first last) (data : List UInt8) :
    Holds hash (setInPlace σ a data data.length) chain (Function.update book key (some (first, data))) := by
  have keys : (McServer.setInPlace σ a data data.length).key = σ.key := by
    funext x
    by_cases same : x = a
    · subst same
      rw [Server.key, McServer.setInPlace, σ.modify_self]
      exact Item.inPlace_key _ _
    · rw [Server.key, McServer.setInPlace, σ.modify_other _ same]
      rfl
  refine ⟨?_, fun b x inside => ?_, fun k unknown x inside => ?_, fun k first' last' present => ?_⟩
  · refine holds.table.modify_filed rfl (Item.inPlace_key _ _) fun b filed => ⟨filed.nkey, filed.cas, ?_, ?_⟩
    · rw [Item.inPlace_key]
      exact filed.hv
    · rw [Item.inPlace_key]
      exact filed.home
  · have flags := holds.flags b x inside
    by_cases same : x = a
    · subst same
      rw [McServer.setInPlace, σ.modify_self]
      exact flags
    · rw [McServer.setInPlace, σ.modify_other _ same]
      exact flags
  · rw [keys]
    by_cases same : k = key
    · subst same
      simp at unknown
    · rw [Function.update_of_ne same] at unknown
      exact holds.absent k unknown x inside
  · by_cases same : k = key
    · subst same
      rw [Function.update_self, Option.some.injEq, Prod.mk.injEq] at present
      obtain ⟨rfl, rfl⟩ := present
      refine ⟨a, member, by rw [keys, named], ?_⟩
      rw [McServer.setInPlace, σ.modify_self]
      exact stores.inPlace data
    · rw [Function.update_of_ne same] at present
      obtain ⟨x, inside, name, others⟩ := holds.stored k first' last' present
      have differ : x ≠ a := by
        rintro rfl
        exact same (name.symm.trans named)
      refine ⟨x, inside, by rw [keys, name], ?_⟩
      rw [McServer.setInPlace, σ.modify_other _ differ]
      exact others

theorem Server.modify_modify (σ : Server) (a : Addr) (f g : Item → Item) :
    (σ.modify a f).modify a g = σ.modify a fun it => g (f it) := by
  simp [Server.modify, Server.setItem]

/-- The fresh path as one change of the object, before it is linked in. -/
theorem setFresh_eq (ready : (σ.items a).slabsClsid = 0) (nkey nbytes hv : Nat) :
    setFresh σ a key nkey data nbytes hv =
      some (assocInsert (σ.modify a fun it => freshItem it key nkey data nbytes hv) a hv) := by
  simp only [setFresh, doItemAlloc, ready, doItemLink, Option.bind_eq_bind, guard, if_true, Option.pure_def, Option.bind_some,
    Server.modify_modify, Server.modify_self]
  rfl

/-- What `assoc_insert` does not change. -/
theorem assocInsert_items (σ : Server) (a : Addr) (hv : Nat) (x : Addr) :
    ∃ p, (assocInsert σ a hv).items x = { σ.items x with hNext := p } := by
  by_cases same : x = a
  · subst same
    refine ⟨σ.heads (bucketOf hv), ?_⟩
    change (σ.modify x fun i => { i with hNext := σ.heads (bucketOf hv) }).items x = _
    rw [σ.modify_self]
  · refine ⟨(σ.items x).hNext, ?_⟩
    change (σ.modify a fun i => { i with hNext := σ.heads (bucketOf hv) }).items x = _
    rw [σ.modify_other _ same]

/-- The object that was filled, as it is in its bucket. -/
theorem freshItem_filed (it : Item) (length : key.length = keyLength) (short : data.length ≤ vLength) :
    (freshItem it key keyLength data data.length (hash key)).Filed hash (bucketOf (hash key)) := by
  have named := freshItem_key it (hash key) length short
  exact ⟨rfl, rfl, by rw [named]; rfl, by rw [named]⟩

/-- An object that no bucket holds may be filled, -/
theorem Holds.modify_absent (holds : Holds hash σ chain book) (absent : ∀ b, a ∉ chain b) (f : Item → Item) :
    Holds hash (σ.modify a f) chain book := by
  have same : ∀ b, ∀ x ∈ chain b, (σ.modify a f).items x = σ.items x := by
    intro b x inside
    apply σ.modify_other
    rintro rfl
    exact absent b inside
  refine ⟨holds.table.modify_absent absent f, fun b x inside => ?_, fun k unknown x inside => ?_, fun k first last present => ?_⟩
  · rw [same b x inside]
    exact holds.flags b x inside
  · rw [Server.key, same _ x inside]
    exact holds.absent k unknown x inside
  · obtain ⟨x, inside, name, stores⟩ := holds.stored k first last present
    refine ⟨x, inside, ?_, ?_⟩
    · rw [Server.key, same _ x inside]
      exact name
    · rw [same _ x inside]
      exact stores

/-- and then linked in under a new key. -/
theorem Holds.insert (holds : Holds hash σ chain book) (absent : ∀ b, a ∉ chain b)
    (filed : (σ.items a).Filed hash (bucketOf (hash key))) (flags : (σ.items a).linked = true ∧ (σ.items a).slabbed = false)
    (named : σ.key a = key) (stores : (σ.items a).Stores first last) (unknown : book key = none) :
    Holds hash (assocInsert σ a (hash key)) (Function.update chain (bucketOf (hash key)) (a :: chain (bucketOf (hash key))))
      (Function.update book key (some (first, last))) := by
  have keys : (assocInsert σ a (hash key)).key = σ.key := by
    funext x
    obtain ⟨p, after⟩ := assocInsert_items σ a (hash key) x
    rw [Server.key, after]
    rfl
  refine ⟨?_, fun b x inside => ?_, fun k missing x inside => ?_, fun k first' last' present => ?_⟩
  · refine holds.table.insert absent filed (fun x inside => ?_) rfl
    rw [named]
    exact holds.absent key unknown x inside
  · obtain ⟨p, after⟩ := assocInsert_items σ a (hash key) x
    rw [after]
    by_cases home : b = bucketOf (hash key)
    · subst home
      rw [Function.update_self, List.mem_cons] at inside
      rcases inside with rfl | old
      · exact flags
      · exact holds.flags _ x old
    · rw [Function.update_of_ne home] at inside
      exact holds.flags b x inside
  · have other : k ≠ key := by
      rintro rfl
      simp at missing
    rw [Function.update_of_ne other] at missing
    rw [keys]
    by_cases home : bucketOf (hash k) = bucketOf (hash key)
    · rw [home, Function.update_self, List.mem_cons] at inside
      rcases inside with rfl | old
      · rw [named]
        exact other.symm
      · exact holds.absent k missing x (home ▸ old)
    · rw [Function.update_of_ne home] at inside
      exact holds.absent k missing x inside
  · rw [keys]
    by_cases other : k = key
    · subst other
      rw [Function.update_self, Option.some.injEq, Prod.mk.injEq] at present
      obtain ⟨rfl, rfl⟩ := present
      obtain ⟨p, after⟩ := assocInsert_items σ a (hash k) a
      refine ⟨a, by simp, named, ?_⟩
      rw [after]
      exact stores.withNext p
    · rw [Function.update_of_ne other] at present
      obtain ⟨x, inside, name, kept⟩ := holds.stored k first' last' present
      obtain ⟨p, after⟩ := assocInsert_items σ a (hash key) x
      refine ⟨x, ?_, name, ?_⟩
      · by_cases home : bucketOf (hash k) = bucketOf (hash key)
        · rw [home] at inside ⊢
          simp [inside]
        · rwa [Function.update_of_ne home]
      · rw [after]
        exact kept.withNext p

/-- **A set of a new key** links in an object that no bucket holds, and writes the book. -/
theorem Holds.setFresh (holds : Holds hash σ chain book) (absent : ∀ b, a ∉ chain b) (ready : (σ.items a).slabsClsid = 0)
    (length : key.length = keyLength) (short : data.length ≤ vLength) (unknown : book key = none) :
    ∃ σ', setFresh σ a key keyLength data data.length (hash key) = some σ' ∧
      Holds hash σ' (Function.update chain (bucketOf (hash key)) (a :: chain (bucketOf (hash key))))
        (Function.update book key (some (data, data))) ∧
      σ'.freelist = σ.freelist ∧ σ'.first = σ.first ∧ σ'.loading = σ.loading ∧ σ'.evict = σ.evict ∧
      ∀ x, (σ.items x).slabsClsid = 0 → (σ'.items x).slabsClsid = 0 := by
  refine ⟨_, setFresh_eq ready keyLength data.length (hash key), ?_, rfl, rfl, rfl, rfl, fun x zero => ?_⟩
  · refine (holds.modify_absent absent _).insert absent ?_ ?_ ?_ ?_ unknown
    · rw [σ.modify_self]
      exact freshItem_filed _ length short
    · rw [σ.modify_self]
      exact ⟨rfl, rfl⟩
    · rw [Server.key, σ.modify_self]
      exact freshItem_key _ _ length short
    · rw [σ.modify_self]
      exact freshItem_stores _ _ short
  · obtain ⟨p, after⟩ := assocInsert_items (σ.modify a fun it => freshItem it key keyLength data data.length (hash key)) a (hash key) x
    rw [after]
    by_cases same : x = a
    · subst same
      rw [σ.modify_self]
      rfl
    · rwa [σ.modify_other _ same]

/-- `mc_set_key_ext` of a key that is there, -/
theorem Holds.setKey_known (holds : Holds hash σ chain book) (alloc : Server → Option (Option Addr × Server))
    (onNull : Server → Option (Bool × Server)) (length : key.length = keyLength)
    (enough : (chain (bucketOf (hash key))).length < fuel) (known : book key = some (first, last)) (data : List UInt8) :
    ∃ a ∈ chain (bucketOf (hash key)), setKey alloc onNull fuel σ key keyLength data data.length (hash key) =
        some (true, McServer.setInPlace σ a data data.length) ∧
      Holds hash (McServer.setInPlace σ a data data.length) chain (Function.update book key (some (first, data))) := by
  obtain ⟨a, member, found, named, stores⟩ := holds.find length enough known
  refine ⟨a, member, ?_, holds.setInPlace member named stores data⟩
  simp [setKey, found]

/-- and of one that is not, when the allocation leaves an object. -/
theorem Holds.setKey_new {alloc : Server → Option (Option Addr × Server)} (onNull : Server → Option (Bool × Server)) {σ₁ : Server}
    {chain₁ : Nat → List Addr} {book₁ : Book} (holds : Holds hash σ chain book) (length : key.length = keyLength)
    (short : data.length ≤ vLength) (enough : (chain (bucketOf (hash key))).length < fuel) (unknown : book key = none)
    (got : alloc σ = some (some a, σ₁)) (holds₁ : Holds hash σ₁ chain₁ book₁) (unknown₁ : book₁ key = none)
    (absent : ∀ b, a ∉ chain₁ b) (ready : (σ₁.items a).slabsClsid = 0) :
    ∃ σ', setKey alloc onNull fuel σ key keyLength data data.length (hash key) = some (true, σ') ∧
      Holds hash σ' (Function.update chain₁ (bucketOf (hash key)) (a :: chain₁ (bucketOf (hash key))))
        (Function.update book₁ key (some (data, data))) ∧
      σ'.freelist = σ₁.freelist ∧ σ'.first = σ₁.first ∧ σ'.loading = σ₁.loading ∧ σ'.evict = σ₁.evict ∧
      ∀ x, (σ₁.items x).slabsClsid = 0 → (σ'.items x).slabsClsid = 0 := by
  obtain ⟨σ', set, after⟩ := holds₁.setFresh absent ready length short unknown₁
  refine ⟨σ', ?_, after⟩
  simp [setKey, holds.find_none length enough unknown, got, set]

end

/-! ## Sequences of sets -/

/-- The next object of the slab that is free. -/
def slabAlloc (σ : Server) : Option (Option Addr × Server) :=
  match σ.freelist with
  | [] => some (none, σ)
  | a :: rest => some (some a, { σ with freelist := rest })

/-- The two servers. -/
inductive Build where
  | mp
  | twoPc

def Build.mcSetKeyExt : Build → Nat → Server → List UInt8 → Nat → List UInt8 → Nat → Nat → Option (Bool × Server)
  | .mp => McServer.mcSetKeyExt slabAlloc
  | .twoPc => McServer.mcSetKeyExt2pc slabAlloc

structure SetCall where
  key : List UInt8
  data : List UInt8

/-- A key of `KEY_LENGTH` bytes, a value of at most `V_LENGTH`. -/
structure SetCall.Admissible (c : SetCall) : Prop where
  key : c.key.length = keyLength
  data : c.data.length ≤ vLength

/-- One call, which has to succeed. -/
def Build.setOne (build : Build) (hash : List UInt8 → Nat) (fuel : Nat) (σ : Server) (c : SetCall) : Option Server := do
  let (done, σ) ← build.mcSetKeyExt fuel σ c.key keyLength c.data c.data.length (hash c.key)
  guard done
  return σ

def Build.setAll (build : Build) (hash : List UInt8 → Nat) (fuel : Nat) (σ : Server) (calls : List SetCall) : Option Server :=
  calls.foldlM (build.setOne hash fuel) σ

/-- The server as it starts, over the objects of its slab. -/
def Server.start (objs : List Addr) : Server := ⟨fun _ => none, fun _ => Item.zero, objs, true, true, 0⟩

/-- The values of the first and the last set of a key. -/
def firstSet (calls : List SetCall) (k : List UInt8) : Option (List UInt8) := (calls.find? (·.key = k)).map SetCall.data
def lastSet (calls : List SetCall) (k : List UInt8) : Option (List UInt8) := (calls.reverse.find? (·.key = k)).map SetCall.data

/-- What the first and the last set make of the book. -/
def bookOf (calls : List SetCall) : Book := fun k => do
  let first ← firstSet calls k
  let last ← lastSet calls k
  return (first, last)

/-- The server after some sets: every object is in a bucket or free. -/
structure AfterSets (hash : List UInt8 → Nat) (objs : List Addr) (calls : List SetCall) (σ : Server) (chain : Nat → List Addr) : Prop where
  holds : Holds hash σ chain (bookOf calls)
  nodup : σ.freelist.Nodup
  apart : ∀ a ∈ σ.freelist, ∀ b, a ∉ chain b
  ready : ∀ a, (σ.items a).slabsClsid = 0
  short : ∀ b, (chain b).length ≤ calls.length
  count : σ.freelist.length + (calls.map SetCall.key).toFinset.card = objs.length

section
variable {hash : List UInt8 → Nat} {objs : List Addr} {calls : List SetCall} {c : SetCall} {σ : Server} {chain : Nat → List Addr}
  {k first last : List UInt8} {fuel : Nat}

theorem firstSet_none : firstSet calls k = none ↔ k ∉ calls.map SetCall.key := by
  simp [firstSet, List.find?_eq_none]

theorem lastSet_none : lastSet calls k = none ↔ k ∉ calls.map SetCall.key := by
  simp [lastSet, List.find?_eq_none]

theorem firstSet_snoc : firstSet (calls ++ [c]) k = (firstSet calls k).or (if c.key = k then some c.data else none) := by
  rw [firstSet, List.find?_append, firstSet]
  cases calls.find? (·.key = k) with
  | some d => rfl
  | none =>
    by_cases same : c.key = k
    · simp [same]
    · simp [same]

theorem lastSet_snoc : lastSet (calls ++ [c]) k = if c.key = k then some c.data else lastSet calls k := by
  rw [lastSet, List.reverse_append, List.reverse_singleton, List.singleton_append]
  by_cases same : c.key = k
  · rw [List.find?_cons_of_pos (by simpa using same), if_pos same]
    rfl
  · rw [List.find?_cons_of_neg (by simpa using same), if_neg same]
    rfl

theorem bookOf_some : bookOf calls k = some (first, last) ↔ firstSet calls k = some first ∧ lastSet calls k = some last := by
  simp [bookOf, Option.bind_eq_some_iff]

theorem bookOf_none : bookOf calls k = none ↔ k ∉ calls.map SetCall.key := by
  rw [← firstSet_none]
  constructor
  · intro missing
    by_contra present
    obtain ⟨first, here⟩ := Option.ne_none_iff_exists'.mp present
    have named : ¬ lastSet calls k = none := by rwa [lastSet_none, ← firstSet_none]
    obtain ⟨last, there⟩ := Option.ne_none_iff_exists'.mp named
    rw [bookOf_some.mpr ⟨here, there⟩] at missing
    cases missing
  · intro missing
    simp [bookOf, missing]

theorem bookOf_snoc_other (differ : k ≠ c.key) : bookOf (calls ++ [c]) k = bookOf calls k := by
  rw [bookOf, firstSet_snoc, lastSet_snoc, if_neg differ.symm, if_neg differ.symm, Option.or_none]
  rfl

/-- A set of a key that is there, in the book, -/
theorem bookOf_snoc_known (known : bookOf calls c.key = some (first, last)) :
    bookOf (calls ++ [c]) = Function.update (bookOf calls) c.key (some (first, c.data)) := by
  funext k
  by_cases same : k = c.key
  · subst same
    rw [Function.update_self, bookOf_some, firstSet_snoc, lastSet_snoc, (bookOf_some.mp known).1]
    simp
  · rw [Function.update_of_ne same, bookOf_snoc_other same]

/-- and of one that is not. -/
theorem bookOf_snoc_new (unknown : bookOf calls c.key = none) :
    bookOf (calls ++ [c]) = Function.update (bookOf calls) c.key (some (c.data, c.data)) := by
  funext k
  by_cases same : k = c.key
  · subst same
    rw [Function.update_self, bookOf_some, firstSet_snoc, lastSet_snoc, firstSet_none.mpr (bookOf_none.mp unknown)]
    simp
  · rw [Function.update_of_ne same, bookOf_snoc_other same]

theorem AfterSets.start (nodup : objs.Nodup) : AfterSets hash objs [] (Server.start objs) fun _ => [] := by
  refine ⟨⟨⟨fun b => rfl, ?_, ?_⟩, ?_, ?_, ?_⟩, nodup, ?_, fun _ => rfl, ?_, ?_⟩
  all_goals simp [bookOf, firstSet, Server.start]

theorem slabAlloc_cons {a : Addr} {rest : List Addr} (free : σ.freelist = a :: rest) :
    slabAlloc σ = some (some a, { σ with freelist := rest }) := by
  simp [slabAlloc, free]

theorem Build.mcSetKeyExt_eq (build : Build) : ∃ onNull, build.mcSetKeyExt = setKey slabAlloc onNull := by
  cases build with
  | mp => exact ⟨fun σ => some (false, σ), rfl⟩
  | twoPc => exact ⟨fun _ => none, rfl⟩

/-- **One set**, when there is an object for each key so far. -/
theorem AfterSets.setOne (after : AfterSets hash objs calls σ chain) (build : Build) (admissible : c.Admissible)
    (enough : ((calls ++ [c]).map SetCall.key).toFinset.card ≤ objs.length) (long : calls.length < fuel) :
    ∃ σ' chain', build.setOne hash fuel σ c = some σ' ∧ AfterSets hash objs (calls ++ [c]) σ' chain' := by
  obtain ⟨onNull, set⟩ := build.mcSetKeyExt_eq
  have reach : (chain (bucketOf (hash c.key))).length < fuel := Nat.lt_of_le_of_lt (after.short _) long
  have more : (calls ++ [c]).length = calls.length + 1 := by simp
  cases book : bookOf calls c.key with
  | some values =>
    obtain ⟨first, last⟩ := values
    obtain ⟨a, _, call, holds⟩ := after.holds.setKey_known slabAlloc onNull admissible.key reach book c.data
    have old : c.key ∈ (calls.map SetCall.key) := by
      by_contra missing
      rw [bookOf_none.mpr missing] at book
      cases book
    refine ⟨setInPlace σ a c.data c.data.length, chain, ?_, ?_, after.nodup, after.apart, fun x => ?_, fun b => ?_, ?_⟩
    · simp [Build.setOne, set, call, guard]
    · rw [bookOf_snoc_known book]
      exact holds
    · rw [← after.ready x]
      by_cases same : x = a
      · subst same
        rw [setInPlace, σ.modify_self]
        rfl
      · rw [setInPlace, σ.modify_other _ same]
    · have bound := after.short b
      omega
    · have same : ((calls ++ [c]).map SetCall.key).toFinset = (calls.map SetCall.key).toFinset := by
        ext k
        simp only [List.map_append, List.map_cons, List.map_nil, List.mem_toFinset, List.mem_append, List.mem_singleton]
        constructor
        · rintro (inside | rfl)
          · exact inside
          · exact old
        · exact Or.inl
      rw [same]
      exact after.count
  | none =>
    have new := bookOf_none.mp book
    have grown : ((calls ++ [c]).map SetCall.key).toFinset.card = (calls.map SetCall.key).toFinset.card + 1 := by
      have same : ((calls ++ [c]).map SetCall.key).toFinset = insert c.key (calls.map SetCall.key).toFinset := by
        ext k
        simp
      rw [same, Finset.card_insert_of_notMem (by simpa using new)]
    have count := after.count
    obtain ⟨a, rest, free⟩ : ∃ a rest, σ.freelist = a :: rest := by
      apply List.exists_cons_of_ne_nil
      intro empty
      rw [empty, List.length_nil] at count
      omega
    have handed := after.apart a (by simp [free])
    have kept : Holds hash { σ with freelist := rest } chain (bookOf calls) :=
      ⟨⟨after.holds.table.path, after.holds.table.item, after.holds.table.keys⟩, after.holds.flags, after.holds.absent,
        after.holds.stored⟩
    obtain ⟨σ', call, holds, freelist, _, _, _, ready⟩ := after.holds.setKey_new onNull admissible.key admissible.data reach book
      (slabAlloc_cons free) kept book handed (after.ready a)
    have distinct := after.nodup
    rw [free, List.nodup_cons] at distinct
    refine ⟨σ', Function.update chain (bucketOf (hash c.key)) (a :: chain (bucketOf (hash c.key))), ?_, ?_, ?_, ?_,
      fun x => ready x (after.ready x), fun b => ?_, ?_⟩
    · simp [Build.setOne, set, call, guard]
    · rw [bookOf_snoc_new book]
      exact holds
    · rw [freelist]
      exact distinct.2
    · rw [freelist]
      intro x inside b
      have before := after.apart x (by rw [free]; exact List.mem_cons_of_mem a inside)
      by_cases home : b = bucketOf (hash c.key)
      · subst home
        rw [Function.update_self, List.mem_cons]
        rintro (rfl | there)
        · exact distinct.1 inside
        · exact before _ there
      · rw [Function.update_of_ne home]
        exact before b
    · have bound := after.short b
      by_cases home : b = bucketOf (hash c.key)
      · subst home
        rw [Function.update_self, List.length_cons]
        omega
      · rw [Function.update_of_ne home]
        omega
    · rw [freelist, grown]
      rw [free, List.length_cons] at count
      change rest.length + _ = _
      omega

/-- **Any number of sets** succeed. -/
theorem setAll_after (build : Build) (nodup : objs.Nodup) (calls : List SetCall) (admissible : ∀ c ∈ calls, c.Admissible)
    (enough : (calls.map SetCall.key).toFinset.card ≤ objs.length) (long : calls.length < fuel) :
    ∃ σ chain, build.setAll hash fuel (Server.start objs) calls = some σ ∧ AfterSets hash objs calls σ chain := by
  induction calls using List.reverseRecOn with
  | nil => exact ⟨_, _, rfl, AfterSets.start nodup⟩
  | append_singleton calls c ih =>
    have fewer : (calls.map SetCall.key).toFinset.card ≤ ((calls ++ [c]).map SetCall.key).toFinset.card := by
      apply Finset.card_le_card
      intro k inside
      simp only [List.map_append, List.mem_toFinset, List.mem_append] at inside ⊢
      exact Or.inl inside
    rw [List.length_append] at long
    obtain ⟨σ, chain, run, after⟩ := ih (fun d inside => admissible d (by simp [inside])) (Nat.le_trans fewer enough)
      (Nat.lt_of_le_of_lt (Nat.le_add_right _ _) long)
    obtain ⟨σ', chain', one, next⟩ := after.setOne build (admissible c (by simp)) enough (Nat.lt_of_le_of_lt (Nat.le_add_right _ _) long)
    refine ⟨σ', chain', ?_, next⟩
    rw [Build.setAll] at run ⊢
    rw [List.foldlM_append, run]
    simpa using one

/-- The answer of a get: the length it copies and the bytes. -/
structure Answers (σ : Server) (a : Addr) (value : List UInt8) : Prop where
  length : (σ.items a).nbytes - 2 = value.length
  data : (σ.items a).load (σ.items a).dataOff value.length = value

/-- **A get after any number of sets finds the item of the key, and answers with the last value exactly where this has
the length of the first.** -/
theorem set_get_iff (build : Build) (hash : List UInt8 → Nat) (objs : List Addr) (nodup : objs.Nodup) (calls : List SetCall)
    (admissible : ∀ c ∈ calls, c.Admissible) (enough : (calls.map SetCall.key).toFinset.card ≤ objs.length) (fuel : Nat)
    (long : calls.length < fuel) :
    ∃ σ, build.setAll hash fuel (Server.start objs) calls = some σ ∧
      ∀ k first last, firstSet calls k = some first → lastSet calls k = some last →
        ∃ a, mcGetKeyExt fuel σ k keyLength (hash k) = some (some a) ∧ (Answers σ a last ↔ last.length = first.length) := by
  obtain ⟨σ, chain, run, after⟩ := setAll_after build nodup calls admissible enough long
  refine ⟨σ, run, fun k first last atFirst atLast => ?_⟩
  have named : ∃ c ∈ calls, c.key = k := by
    obtain ⟨c, found, _⟩ := Option.map_eq_some_iff.mp atFirst
    exact ⟨c, List.mem_of_find?_eq_some found, by simpa using List.find?_some found⟩
  obtain ⟨c, inside, rfl⟩ := named
  obtain ⟨a, _, found, _, stores⟩ := after.holds.find (admissible c inside).key (Nat.lt_of_le_of_lt (after.short _) long)
    (bookOf_some.mpr ⟨atFirst, atLast⟩)
  refine ⟨a, found, ?_⟩
  have nbytes := stores.nbytes
  constructor
  · rintro ⟨length, _⟩
    omega
  · intro same
    exact ⟨by omega, stores.data⟩

end

/-- A value of four bytes, and then one of two. -/
def shorterSet : List SetCall := [⟨List.replicate keyLength 7, [1, 2, 3, 4]⟩, ⟨List.replicate keyLength 7, [9, 8]⟩]

/-- After a set of a shorter value the get still has the length of the first, in both servers. -/
theorem set_get_shorter :
    (∃ σ, Build.mp.setAll (fun _ => 5) 3 (Server.start [0]) shorterSet = some σ ∧
      mcGetKeyExt 3 σ (List.replicate keyLength 7) keyLength 5 = some (some 0) ∧ ¬ Answers σ 0 [9, 8]) ∧
    ∃ σ, Build.twoPc.setAll (fun _ => 5) 3 (Server.start [0]) shorterSet = some σ ∧
      mcGetKeyExt 3 σ (List.replicate keyLength 7) keyLength 5 = some (some 0) ∧ ¬ Answers σ 0 [9, 8] := by
  refine ⟨⟨_, rfl, by decide, ?_⟩, ⟨_, rfl, by decide, ?_⟩⟩
  · intro answers
    exact absurd answers.length (by decide)
  · intro answers
    exact absurd answers.length (by decide)

theorem set_get_same_length :
    ∃ σ a, Build.mp.setAll (fun _ => 5) 3 (Server.start [0])
        [⟨List.replicate keyLength 7, [1, 2]⟩, ⟨List.replicate keyLength 7, [9, 8]⟩] = some σ ∧
      mcGetKeyExt 3 σ (List.replicate keyLength 7) keyLength 5 = some (some a) ∧ Answers σ a [9, 8] := by
  have admissible : ∀ c ∈ [(⟨List.replicate keyLength 7, [1, 2]⟩ : SetCall), ⟨List.replicate keyLength 7, [9, 8]⟩], c.Admissible := by
    intro c inside
    rcases List.mem_pair.mp inside with rfl | rfl
    · exact ⟨by decide, by decide⟩
    · exact ⟨by decide, by decide⟩
  obtain ⟨σ, run, gets⟩ := set_get_iff .mp (fun _ => 5) [0] (by simp) _ admissible (by decide) 3 (by decide)
  obtain ⟨a, found, answers⟩ := gets (List.replicate keyLength 7) [1, 2] [9, 8] (by decide) (by decide)
  exact ⟨σ, a, run, found, answers.mpr rfl⟩

end BiProject.McServer
