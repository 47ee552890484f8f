import BiProject.McServer.Items
import Mathlib.Data.List.Nodup

/-!
# What the functions do to the table

The buckets as chains of items, all of them under the key they are looked up by. One lemma for each way an item
changes: its value is overwritten in place, it is filled and linked in, it is unlinked.
-/

namespace BiProject.McServer
set_option autoImplicit false
open BiProject.Lib.Chains

/-! ## Bytes -/

section
variable {it : Item} {off : Nat} {src : List UInt8}

@[simp] theorem Item.load_length (it : Item) (off n : Nat) : (it.load off n).length = n := by simp [Item.load]

/-- What was copied is read back, -/
theorem Item.load_memcpy (it : Item) (off : Nat) (src : List UInt8) : (it.memcpy off src).load off src.length = src := by
  refine List.ext_getElem (by simp) fun i inside _ => ?_
  have bound : i < src.length := by simpa using inside
  simp [Item.load, Item.memcpy, bound]

/-- and what lies elsewhere is as before. -/
theorem Item.load_memcpy_apart (it : Item) {off off' n : Nat} (src : List UInt8) (apart : off' + n ≤ off ∨ off + src.length ≤ off') :
    (it.memcpy off src).load off' n = it.load off' n := by
  refine List.map_congr_left fun i member => ?_
  have bound := List.mem_range.mp member
  exact if_neg (by omega)

end

/-! ## One item changes -/

/-- The key of an item. -/
def Item.key (it : Item) : List UInt8 := it.load it.keyOff it.nkey

def Server.key (σ : Server) (a : Addr) : List UInt8 := (σ.items a).key

section
variable {σ : Server} {a x : Addr} {f : Item → Item}

@[simp] theorem Server.modify_self (σ : Server) (a : Addr) (f : Item → Item) : (σ.modify a f).items a = f (σ.items a) :=
  Function.update_self _ _ _

theorem Server.modify_other (σ : Server) {a x : Addr} (f : Item → Item) (differ : x ≠ a) : (σ.modify a f).items x = σ.items x :=
  Function.update_of_ne differ _ _

theorem Server.modify_link_other (σ : Server) (f : Item → Item) {c : Cell Nat Addr} (differ : c ≠ .next a) :
    (σ.modify a f).link c = σ.link c := by
  cases c with
  | head b => rfl
  | next x =>
    have other : x ≠ a := fun same => differ (by rw [same])
    simp only [Server.link, σ.modify_other f other]

theorem Server.modify_link_same (σ : Server) (same : (f (σ.items a)).hNext = (σ.items a).hNext) :
    (σ.modify a f).link = σ.link := by
  funext c
  by_cases here : c = .next a
  · subst here
    simp [Server.link, same]
  · exact σ.modify_link_other f here

theorem Server.store_link (σ : Server) (c : Cell Nat Addr) (v : Option Addr) : (σ.store c v).link = Function.update σ.link c v := by
  funext d
  cases c with
  | head b =>
    cases d with
    | head b' =>
      by_cases same : b' = b
      · subst same
        simp [Server.store, Server.link]
      · simp [Server.store, Server.link, same]
    | next x => simp [Server.store, Server.link]
  | next a =>
    by_cases here : d = .next a
    · subst here
      simp [Server.store, Server.link]
    · rw [Function.update_of_ne here, Server.store]
      exact σ.modify_link_other _ here

@[simp] theorem Server.store_head_items (σ : Server) (b : Nat) (v : Option Addr) : (σ.store (.head b) v).items = σ.items := rfl

/-- A store through an `item **` changes a link only. -/
theorem Server.store_items (σ : Server) (c : Cell Nat Addr) (v : Option Addr) (x : Addr) :
    ∃ p, (σ.store c v).items x = { σ.items x with hNext := p } := by
  cases c with
  | head b => exact ⟨_, rfl⟩
  | next a =>
    by_cases same : x = a
    · subst same
      exact ⟨v, by simp [Server.store]⟩
    · refine ⟨(σ.items x).hNext, ?_⟩
      rw [Server.store, σ.modify_other _ same]

end

/-! ## The buckets -/

/-- An item as it is looked up in the bucket `b`. -/
structure Item.Filed (hash : List UInt8 → Nat) (b : Nat) (it : Item) : Prop where
  nkey : it.nkey = keyLength
  cas : it.cas = false
  hv : it.hv = hash it.key
  home : bucketOf (hash it.key) = b

/-- **The table**: each bucket is a chain of its own items, no two of them with the same key. -/
structure TableOk (hash : List UInt8 → Nat) (σ : Server) (chain : Nat → List Addr) : Prop where
  path : ∀ b, Path σ.link (.head b) (chain b)
  item : ∀ b, ∀ a ∈ chain b, (σ.items a).Filed hash b
  keys : ∀ b, ((chain b).map σ.key).Nodup

/-- Another link does not change what an item is. -/
theorem Item.Filed.withNext {hash : List UInt8 → Nat} {b : Nat} {it : Item} (p : Option Addr) (filed : it.Filed hash b) :
    Item.Filed hash b { it with hNext := p } := ⟨filed.nkey, filed.cas, filed.hv, filed.home⟩

section
variable {hash : List UInt8 → Nat} {σ : Server} {chain : Nat → List Addr} {a : Addr} {b : Nat} {key : List UInt8} {fuel : Nat}

theorem TableOk.disjoint (ok : TableOk hash σ chain) {b' : Nat} (here : a ∈ chain b) (there : a ∈ chain b') : b = b' :=
  (ok.item b a here).home.symm.trans (ok.item b' a there).home

theorem TableOk.nodup (ok : TableOk hash σ chain) (b : Nat) : (chain b).Nodup := (ok.path b).nodup

theorem TableOk.matches_iff (ok : TableOk hash σ chain) (member : a ∈ chain b) (length : key.length = keyLength) :
    (σ.items a).matches key keyLength = true ↔ σ.key a = key := by
  have nkey := (ok.item b a member).nkey
  simp only [Item.matches, Server.key, Item.key, nkey, beq_self_eq_true, Bool.true_and, beq_iff_eq,
    List.take_of_length_le (Nat.le_of_eq length)]
  exact eq_comm

theorem TableOk.findLoop (ok : TableOk hash σ chain) (length : key.length = keyLength) {c : Cell Nat Addr} {xs : List Addr}
    (part : xs ⊆ chain b) (path : Path σ.link c xs) (enough : xs.length < fuel) :
    assocFindLoop σ key keyLength fuel (σ.link c) = some (xs.find? (σ.key · = key)) := by
  induction xs generalizing c fuel with
  | nil =>
    obtain ⟨fuel, rfl⟩ : ∃ n, fuel = n + 1 := ⟨fuel - 1, by omega⟩
    rw [show σ.link c = none from path]
    rfl
  | cons x xs ih =>
    obtain ⟨fuel, rfl⟩ : ∃ n, fuel = n + 1 := ⟨fuel - 1, by omega⟩
    have member := part List.mem_cons_self
    rw [path.1, assocFindLoop]
    by_cases here : (σ.items x).matches key keyLength = true
    · rw [if_pos here, List.find?_cons_of_pos (by simpa using (ok.matches_iff member length).mp here)]
    · rw [if_neg here, List.find?_cons_of_neg (by simpa using fun same => here ((ok.matches_iff member length).mpr same))]
      exact ih (fun y later => part (List.mem_cons_of_mem x later)) path.2 (by simpa using enough)

/-- **`assoc_find`** returns the item of the bucket that has the key. -/
theorem TableOk.find (ok : TableOk hash σ chain) (length : key.length = keyLength)
    (enough : (chain (bucketOf (hash key))).length < fuel) :
    assocFind fuel σ key keyLength (hash key) = some ((chain (bucketOf (hash key))).find? (σ.key · = key)) :=
  ok.findLoop length (fun _ => id) (ok.path _) enough

/-- An item is found under its key. -/
theorem TableOk.find?_eq (ok : TableOk hash σ chain) (member : a ∈ chain b) (named : σ.key a = key) :
    (chain b).find? (σ.key · = key) = some a := by
  obtain ⟨ys, zs, split⟩ := List.append_of_mem member
  have distinct := ok.keys b
  rw [split, List.map_append, List.map_cons] at distinct
  have before : ∀ y ∈ ys, σ.key y ≠ key := by
    intro y inside same
    have twice : σ.key a ∈ ys.map σ.key := List.mem_map.mpr ⟨y, inside, by rw [same, named]⟩
    exact (List.nodup_append'.mp distinct).2.2 twice List.mem_cons_self
  rw [split, List.find?_append, List.find?_eq_none.mpr (by simpa using before)]
  simp [named]

/-! ## A change of one item -/

/-- An item that is in no bucket may be changed, -/
theorem TableOk.modify_absent (ok : TableOk hash σ chain) (absent : ∀ b, a ∉ chain b) (f : Item → Item) :
    TableOk hash (σ.modify a f) chain := by
  have differ : ∀ b, ∀ x ∈ chain b, x ≠ a := by
    rintro b x member rfl
    exact absent b member
  refine ⟨fun b => (ok.path b).frame rfl fun x member => ?_, fun b x member => ?_, fun b => ?_⟩
  · exact σ.modify_link_other f fun same => differ b x member (Cell.next.inj same)
  · rw [σ.modify_other f (differ b x member)]
    exact ok.item b x member
  · have same : (chain b).map (σ.modify a f).key = (chain b).map σ.key := by
      refine List.map_congr_left fun x member => ?_
      rw [Server.key, σ.modify_other f (differ b x member)]
      rfl
    rw [same]
    exact ok.keys b

/-- and one that is in a bucket, where its link, its key and its other fields stay. -/
theorem TableOk.modify_filed (ok : TableOk hash σ chain) {f : Item → Item} (next : (f (σ.items a)).hNext = (σ.items a).hNext)
    (name : (f (σ.items a)).key = (σ.items a).key)
    (fields : ∀ b, (σ.items a).Filed hash b → (f (σ.items a)).Filed hash b) : TableOk hash (σ.modify a f) chain := by
  have keys : (σ.modify a f).key = σ.key := by
    funext x
    by_cases same : x = a
    · subst same
      simpa [Server.key] using name
    · rw [Server.key, σ.modify_other f same]
      rfl
  refine ⟨fun b => by rw [σ.modify_link_same next]; exact ok.path b, fun b x member => ?_, fun b => by rw [keys]; exact ok.keys b⟩
  by_cases same : x = a
  · subst same
    rw [σ.modify_self]
    exact fields b (ok.item b x member)
  · rw [σ.modify_other f same]
    exact ok.item b x member

/-- A store through the cell behind some items of a bucket is not seen in the others. -/
theorem TableOk.store (ok : TableOk hash σ chain) (ys : List Addr) {zs xs : List Addr} {v : Option Addr} (split : chain b = ys ++ zs)
    (path : Path (Function.update σ.link (lastCell (.head b) ys) v) (.head b) xs)
    (item : ∀ x ∈ xs, (σ.items x).Filed hash b) (keys : (xs.map σ.key).Nodup) :
    TableOk hash (σ.store (lastCell (.head b) ys) v) (Function.update chain b xs) := by
  have elsewhere : ∀ b', b' ≠ b → ∀ c, c = .head b' ∨ (∃ x ∈ chain b', c = .next x) → c ≠ lastCell (.head b) ys := by
    rintro b' differ c place rfl
    rcases lastCell_mem (.head b : Cell Nat Addr) ys with here | ⟨y, member, here⟩
    · rcases place with same | ⟨x, _, same⟩
      · exact differ (Cell.head.inj (same.symm.trans here))
      · cases same.symm.trans here
    · rcases place with same | ⟨x, inside, same⟩
      · cases same.symm.trans here
      · obtain rfl := Cell.next.inj (same.symm.trans here)
        exact differ (ok.disjoint inside (by simp [split, member]))
  have names : (σ.store (lastCell (.head b) ys) v).key = σ.key := by
    funext x
    obtain ⟨p, after⟩ := σ.store_items (lastCell (.head b) ys) v x
    rw [Server.key, after]
    rfl
  refine ⟨fun b' => ?_, fun b' x member => ?_, fun b' => ?_⟩
  · rw [σ.store_link]
    by_cases same : b' = b
    · subst same
      rwa [Function.update_self]
    · rw [Function.update_of_ne same]
      refine (ok.path b').frame (Function.update_of_ne (elsewhere b' same _ (Or.inl rfl)) _ _) fun x member => ?_
      exact Function.update_of_ne (elsewhere b' same _ (Or.inr ⟨x, member, rfl⟩)) _ _
  · obtain ⟨p, after⟩ := σ.store_items (lastCell (.head b) ys) v x
    rw [after]
    refine Item.Filed.withNext p ?_
    by_cases same : b' = b
    · subst same
      rw [Function.update_self] at member
      exact item x member
    · rw [Function.update_of_ne same] at member
      exact ok.item b' x member
  · rw [names]
    by_cases same : b' = b
    · subst same
      rwa [Function.update_self]
    · rw [Function.update_of_ne same]
      exact ok.keys b'

/-! ## Linking -/

/-- **`assoc_insert`** of an item that is in no bucket and whose key is new. -/
theorem TableOk.insert (ok : TableOk hash σ chain) (absent : ∀ b, a ∉ chain b) (filed : (σ.items a).Filed hash b)
    (new : ∀ x ∈ chain b, σ.key x ≠ σ.key a) {hv : Nat} (home : bucketOf hv = b) :
    TableOk hash (assocInsert σ a hv) (Function.update chain b (a :: chain b)) := by
  subst home
  rw [assocInsert]
  have kept := ok.modify_absent absent fun i => { i with hNext := σ.heads (bucketOf hv) }
  refine kept.store [] (List.nil_append _).symm ?_ (fun x member => ?_) ?_
  · have before : Path (σ.modify a fun i => { i with hNext := σ.heads (bucketOf hv) }).link (.head (bucketOf hv))
        ([] ++ ([] ++ chain (bucketOf hv))) := kept.path _
    refine before.enter (by simp) (by simpa using absent _) ?_
    rw [← (ok.path (bucketOf hv)).link_eq]
    simp [Server.link]
  · rcases List.mem_cons.mp member with rfl | old
    · rw [σ.modify_self]
      exact filed.withNext _
    · exact kept.item _ x old
  · rw [List.map_cons, List.nodup_cons]
    refine ⟨fun twice => ?_, kept.keys _⟩
    obtain ⟨x, inside, same⟩ := List.mem_map.mp twice
    have differ : x ≠ a := by
      rintro rfl
      exact absent _ inside
    rw [Server.key, σ.modify_other _ differ, Server.key, σ.modify_self] at same
    exact new x inside same

/-! ## Unlinking -/

theorem TableOk.beforeLoop (ok : TableOk hash σ chain) (length : key.length = keyLength) {c : Cell Nat Addr} {ys zs : List Addr}
    (part : ys ++ a :: zs ⊆ chain b) (path : Path σ.link c (ys ++ a :: zs)) (others : ∀ y ∈ ys, σ.key y ≠ key) (named : σ.key a = key)
    (enough : ys.length < fuel) : hashitemBeforeLoop σ key keyLength fuel c = some (lastCell c ys) := by
  induction ys generalizing c fuel with
  | nil =>
    obtain ⟨fuel, rfl⟩ : ∃ n, fuel = n + 1 := ⟨fuel - 1, by omega⟩
    rw [hashitemBeforeLoop, path.1]
    simp only
    rw [if_pos ((ok.matches_iff (part (by simp)) length).mpr named)]
    rfl
  | cons y ys ih =>
    obtain ⟨fuel, rfl⟩ : ∃ n, fuel = n + 1 := ⟨fuel - 1, by omega⟩
    rw [hashitemBeforeLoop, path.1]
    simp only
    rw [if_neg fun here => others y (by simp) ((ok.matches_iff (part (by simp)) length).mp here)]
    exact ih (fun x member => part (List.mem_cons_of_mem y member)) path.2 (fun x member => others x (List.mem_cons_of_mem y member))
      (by simpa using enough)

/-- **`assoc_delete`** of the key of an item takes this item out of its bucket. -/
theorem TableOk.delete (ok : TableOk hash σ chain) (member : a ∈ chain b) {hv : Nat} (home : bucketOf hv = b)
    (enough : (chain b).length ≤ fuel) :
    ∃ σ', assocDelete fuel σ (σ.key a) keyLength hv = some σ' ∧ TableOk hash σ' (Function.update chain b ((chain b).erase a)) ∧
      σ'.freelist = σ.freelist ∧ σ'.first = σ.first ∧ σ'.loading = σ.loading ∧ σ'.evict = σ.evict ∧
      ∀ x, ∃ p, σ'.items x = { σ.items x with hNext := p } := by
  subst home
  obtain ⟨ys, zs, split⟩ := List.append_of_mem member
  have distinct := ok.keys (bucketOf hv)
  rw [split, List.map_append, List.map_cons] at distinct
  have others : ∀ y ∈ ys, σ.key y ≠ σ.key a := by
    intro y inside same
    exact (List.nodup_append'.mp distinct).2.2 (List.mem_map.mpr ⟨y, inside, same⟩) List.mem_cons_self
  have path := ok.path (bucketOf hv)
  rw [split] at path
  have length : (σ.key a).length = keyLength := by
    rw [Server.key, Item.key, Item.load_length]
    exact (ok.item _ a member).nkey
  have before : hashitemBeforeLoop σ (σ.key a) keyLength fuel (.head (bucketOf hv)) = some (lastCell (.head (bucketOf hv)) ys) :=
    ok.beforeLoop length (by rw [split]; exact fun _ => id) path others rfl
      (by rw [split, List.length_append, List.length_cons] at enough; omega)
  have behind := path.drop
  have erased : (chain (bucketOf hv)).erase a = ys ++ zs := by
    have absent : a ∉ ys := fun inside => others a inside rfl
    rw [split, List.erase_append_right _ absent, List.erase_cons_head]
  have fewer : (ys ++ zs).Sublist (chain (bucketOf hv)) := by
    rw [split]
    exact (List.sublist_cons_self a zs).append_left ys
  refine ⟨σ.store (lastCell (.head (bucketOf hv)) ys) (σ.items a).hNext, ?_, ?_, ?_⟩
  · rw [assocDelete, before]
    simp [behind.1]
  · rw [erased, show (σ.items a).hNext = zs.head? from behind.2.link_eq]
    refine ok.store ys split path.remove (fun x inside => ok.item _ x (fewer.subset inside)) ?_
    exact (ok.keys _).sublist (fewer.map _)
  · have same : ∀ (c : Cell Nat Addr) (v : Option Addr), (σ.store c v).freelist = σ.freelist ∧ (σ.store c v).first = σ.first ∧
        (σ.store c v).loading = σ.loading ∧ (σ.store c v).evict = σ.evict := by
      intro c v
      cases c <;> exact ⟨rfl, rfl, rfl, rfl⟩
    obtain ⟨freelist, first, loading, evict⟩ := same (lastCell (.head (bucketOf hv)) ys) (σ.items a).hNext
    exact ⟨freelist, first, loading, evict, σ.store_items _ _⟩

/-- What is left in the buckets without an item. -/
theorem TableOk.mem_erase (ok : TableOk hash σ chain) (member : a ∈ chain b) {b' : Nat} {x : Addr} :
    x ∈ Function.update chain b ((chain b).erase a) b' ↔ x ∈ chain b' ∧ x ≠ a := by
  by_cases same : b' = b
  · subst same
    rw [Function.update_self, (ok.nodup b').mem_erase_iff, and_comm]
  · rw [Function.update_of_ne same]
    constructor
    · intro inside
      refine ⟨inside, ?_⟩
      rintro rfl
      exact same (ok.disjoint inside member)
    · exact And.left

/-- Two items of a bucket with one key are one. -/
theorem TableOk.key_inj (ok : TableOk hash σ chain) {x : Addr} (here : a ∈ chain b) (there : x ∈ chain b) (same : σ.key a = σ.key x) : a = x := by
  have one := ok.find?_eq here same
  rw [ok.find?_eq there rfl] at one
  exact (Option.some.inj one).symm

end

/-! ## An object goes back to the slab -/

theorem doItemRemoveFree_eq {σ : Server} {a : Addr} (nobjs : Nat) (busy : a ∉ σ.freelist) (slabbed : (σ.items a).slabbed = false) :
    doItemRemoveFree nobjs σ a = if σ.freelist.length + 1 = nobjs then none else
      some { (σ.modify a fun it => { it with slabsClsid := 0 }) with freelist := a :: σ.freelist } := by
  have same : (σ.modify a fun it => { it with slabsClsid := 0 }).freelist = σ.freelist := rfl
  by_cases last : σ.freelist.length + 1 = nobjs
  · simp [doItemRemoveFree, itemFree, psSlabFreeItem, guard, slabbed, busy, same, last]
  · simp [doItemRemoveFree, itemFree, psSlabFreeItem, guard, slabbed, busy, same, last]

end BiProject.McServer
