import BiProject.McServer.Values
import Mathlib.Data.List.Perm.Subperm

/-!
# The cache of `mp_mc`

The server of the `KEY_SKEW` build: one slab, and when its objects are used up the allocator's own call for memory
unlinks the first `EVICT_NUM` of them and reports that it has none, so that the second try of `do_item_alloc` gets one.
What a server has stored and evicted, one after the other, tells what a get answers.
-/

namespace BiProject.McServer
set_option autoImplicit false
open BiProject.Lib.Chains

/-! ## The allocator -/

/-- `EVICT_NUM` of `mp_mc`. -/
def evictNum : Nat := 30

/-- `mc_evict` of the slab with the objects `objs`, in the order of their addresses. -/
def mcEvict (fuel : Nat) (objs : List Addr) (σ : Server) : Option Server := do
  guard (σ.freelist = [])
  let σ ← (objs.take evictNum).foldlM (fun σ a => doItemUnlink objs.length fuel σ a (σ.items a).hv) σ
  return { σ with evict := σ.evict + evictNum }

/-- `mc_alloc_pages`: whether there is a new slab. -/
def mcAllocPages (fuel : Nat) (objs : List Addr) (σ : Server) : Option (Bool × Server) := do
  if σ.first = false then return (true, { σ with first := true, items := fun _ => Item.zero })
  else if σ.loading then return (false, σ)
  else
    let σ ← mcEvict fuel objs σ
    return (false, σ)

/-- `ps_slab_alloc_item`; the objects of a new slab are free. -/
def psSlabAllocItem (fuel : Nat) (objs : List Addr) (σ : Server) : Option (Option Addr × Server) := do
  if σ.freelist = [] then
    let (new, σ) ← mcAllocPages fuel objs σ
    if new then
      guard (objs ≠ [])
      slabAlloc { σ with freelist := objs }
    else return (none, σ)
  else slabAlloc σ

/-- The two tries of `do_item_alloc`. -/
def itemAlloc (fuel : Nat) (objs : List Addr) (σ : Server) : Option (Option Addr × Server) := do
  let (r, σ) ← psSlabAllocItem fuel objs σ
  match r with
  | some a => return (some a, σ)
  | none => psSlabAllocItem fuel objs σ

/-! ## The messages -/

inductive Msg where
  | set (key data : List UInt8)
  | get (key : List UInt8)
  | begin

inductive Reply where
  | setOk
  | setFail
  | getOk (data : List UInt8)
  | getFail
  | noReply

/-- One turn of `event_loop`. -/
def handle (hash : List UInt8 → Nat) (fuel : Nat) (objs : List Addr) (σ : Server) : Msg → Option (Reply × Server)
  | .set key data => do
    let (done, σ) ← mcSetKeyExt (itemAlloc fuel objs) fuel σ key keyLength data data.length (hash key)
    if done then return (.setOk, σ)
    else
      guard (σ.loading = true)
      return (.setFail, σ)
  | .get key => do
    let r ← mcGetKeyExt fuel σ key keyLength (hash key)
    match r with
    | some a => return (.getOk ((σ.items a).load (σ.items a).dataOff ((σ.items a).nbytes - 2)), σ)
    | none => return (.getFail, σ)
  | .begin => return (.noReply, { σ with loading := false })

/-- Keys of `KEY_LENGTH` bytes and values of `V_LENGTH`. -/
def Msg.Admissible : Msg → Prop
  | .set key data => key.length = keyLength ∧ data.length = vLength
  | .get key => key.length = keyLength
  | .begin => True

/-! ## What was stored and evicted -/

inductive Event where
  | stored (key data : List UInt8)
  | evicted (key : List UInt8)

/-- What an event makes of the value of a key. -/
def Event.apply (k : List UInt8) (value : Option (List UInt8)) : Event → Option (List UInt8)
  | .stored key data => if key = k then some data else value
  | .evicted key => if key = k then none else value

/-- The value of the last set of a key that has not been evicted since. -/
def latest (log : List Event) (k : List UInt8) : Option (List UInt8) := log.foldl (Event.apply k) none

/-- What one turn stores, and what it evicts: the keys of the first `EVICT_NUM` objects, when `status.evict` has changed. -/
def eventsOf (objs : List Addr) (σ : Server) (msg : Msg) (reply : Reply) (σ' : Server) : List Event :=
  (if σ'.evict = σ.evict then [] else (objs.take evictNum).map fun a => .evicted (σ.key a)) ++
    match msg, reply with
    | .set key data, .setOk => [.stored key data]
    | _, _ => []

/-- A turn that keeps the log. -/
def serveOne (hash : List UInt8 → Nat) (fuel : Nat) (objs : List Addr) (s : Server × List Event) (msg : Msg) :
    Option (Server × List Event) := do
  let (reply, σ') ← handle hash fuel objs s.1 msg
  return (σ', s.2 ++ eventsOf objs s.1 msg reply σ')

/-- `server_init`. -/
def serverInit : Server := ⟨fun _ => none, fun _ => Item.zero, [], false, true, 0⟩

def serve (hash : List UInt8 → Nat) (fuel : Nat) (objs : List Addr) (msgs : List Msg) : Option (Server × List Event) :=
  msgs.foldlM (serveOne hash fuel objs) (serverInit, [])

/-! ## The slab -/

/-- Every object of the slab, once there is one, is free or in a bucket. -/
structure Owned (objs : List Addr) (σ : Server) (chain : Nat → List Addr) : Prop where
  nodup : σ.freelist.Nodup
  free : ∀ a ∈ σ.freelist, a ∈ objs
  apart : ∀ a ∈ σ.freelist, ∀ b, a ∉ chain b
  used : ∀ b, ∀ a ∈ chain b, a ∈ objs
  cover : σ.first = true → ∀ a ∈ objs, a ∉ σ.freelist → ∃ b, a ∈ chain b
  fresh : σ.first = false → σ.freelist = [] ∧ ∀ b, chain b = []
  ready : ∀ a, (σ.items a).slabsClsid = 0

section
variable {hash : List UInt8 → Nat} {objs : List Addr} {σ : Server} {chain : Nat → List Addr} {book : Book} {a : Addr} {fuel nobjs : Nat}

theorem Owned.chain_length (owned : Owned objs σ chain) (table : TableOk hash σ chain) (b : Nat) : (chain b).length ≤ objs.length :=
  ((table.nodup b).subperm (owned.used b)).length_le

/-- What the book is without an item, whose own fields do not matter any more. -/
theorem Holds.without (holds : Holds hash σ chain book) {b : Nat} (member : a ∈ chain b) {σ' : Server}
    (table : TableOk hash σ' (Function.update chain b ((chain b).erase a)))
    (same : ∀ x, x ≠ a → ∃ p, σ'.items x = { σ.items x with hNext := p }) :
    Holds hash σ' (Function.update chain b ((chain b).erase a)) (Function.update book (σ.key a) none) := by
  have home : bucketOf (hash (σ.key a)) = b := (holds.table.item b a member).home
  have keys : ∀ x, x ≠ a → σ'.key x = σ.key x := by
    intro x differ
    obtain ⟨p, after⟩ := same x differ
    rw [Server.key, after]
    rfl
  refine ⟨table, fun b' x inside => ?_, fun k unknown x inside => ?_, fun k first last present => ?_⟩
  · obtain ⟨old, differ⟩ := (holds.table.mem_erase member).mp inside
    obtain ⟨p, after⟩ := same x differ
    rw [after]
    exact holds.flags b' x old
  · obtain ⟨old, differ⟩ := (holds.table.mem_erase member).mp inside
    rw [keys x differ]
    by_cases gone : k = σ.key a
    · subst gone
      intro twice
      rw [home] at old
      exact differ (holds.table.key_inj old member twice)
    · rw [Function.update_of_ne gone] at unknown
      exact holds.absent k unknown x old
  · have other : k ≠ σ.key a := by
      rintro rfl
      simp at present
    rw [Function.update_of_ne other] at present
    obtain ⟨x, old, name, stores⟩ := holds.stored k first last present
    have differ : x ≠ a := by
      rintro rfl
      exact other name.symm
    obtain ⟨p, after⟩ := same x differ
    refine ⟨x, (holds.table.mem_erase member).mpr ⟨old, differ⟩, by rw [keys x differ, name], ?_⟩
    rw [after]
    exact stores.withNext p

/-- **`do_item_unlink`** takes the binding of the key out of the book. -/
theorem Holds.unlink (holds : Holds hash σ chain book) {b : Nat} (member : a ∈ chain b) (busy : a ∉ σ.freelist)
    (others : σ.freelist.length + 1 ≠ nobjs) (enough : (chain b).length ≤ fuel) :
    ∃ σ', doItemUnlink nobjs fuel σ a (σ.items a).hv = some σ' ∧
      Holds hash σ' (Function.update chain b ((chain b).erase a)) (Function.update book (σ.key a) none) ∧
      σ'.freelist = a :: σ.freelist ∧ σ'.first = σ.first ∧ σ'.loading = σ.loading ∧ σ'.evict = σ.evict ∧
      (∀ x, (σ.items x).slabsClsid = 0 → (σ'.items x).slabsClsid = 0) ∧
      ∀ x, σ'.key x = σ.key x := by
  have filed := holds.table.item b a member
  have home : bucketOf (σ.items a).hv = b := by
    rw [filed.hv]
    exact filed.home
  obtain ⟨linked, slabbed⟩ := holds.flags b a member
  -- the flag is taken away while the item is still in its bucket
  have unflagged : TableOk hash (σ.modify a fun it => { it with linked := false }) chain :=
    holds.table.modify_filed rfl rfl fun b filed => ⟨filed.nkey, filed.cas, filed.hv, filed.home⟩
  obtain ⟨σ₁, deleted, table, free, first, loading, evict, items⟩ := unflagged.delete member home enough
  have freelist : σ₁.freelist = σ.freelist := free
  have own : ∃ p, σ₁.items a = { σ.items a with hNext := p, linked := false } := by
    obtain ⟨p, after⟩ := items a
    rw [σ.modify_self] at after
    exact ⟨p, after⟩
  have other : ∀ x, x ≠ a → ∃ p, σ₁.items x = { σ.items x with hNext := p } := by
    intro x differ
    obtain ⟨p, after⟩ := items x
    rw [σ.modify_other _ differ] at after
    exact ⟨p, after⟩
  have out : unlinkTable fuel σ a (σ.items a).hv = some σ₁ := by
    have nkey : ((σ.modify a fun it => { it with linked := false }).items a).nkey = keyLength := by
      rw [σ.modify_self]
      exact filed.nkey
    simp only [unlinkTable, guard, linked, if_true, Option.bind_eq_bind, Option.pure_def, Option.bind_some]
    rw [nkey]
    simpa [Server.key, Item.key, filed.nkey] using deleted
  have unslabbed : (σ₁.items a).slabbed = false := by
    obtain ⟨p, after⟩ := own
    rw [after]
    exact slabbed
  have freed := doItemRemoveFree_eq nobjs (by rw [freelist]; exact busy) unslabbed
  rw [freelist, if_neg others] at freed
  have absent : ∀ b', a ∉ Function.update chain b ((chain b).erase a) b' := fun b' inside =>
    ((holds.table.mem_erase member).mp inside).2 rfl
  have kept := table.modify_absent absent fun it => { it with slabsClsid := 0 }
  refine ⟨{ (σ₁.modify a fun it => { it with slabsClsid := 0 }) with freelist := a :: σ.freelist }, ?_, ?_, rfl, first, loading, evict,
    fun x zero => ?_, fun x => ?_⟩
  · rw [doItemUnlink, out]
    exact freed
  · refine holds.without member ⟨kept.path, kept.item, kept.keys⟩ fun x differ => ?_
    obtain ⟨p, after⟩ := other x differ
    refine ⟨p, ?_⟩
    change (σ₁.modify a fun it => { it with slabsClsid := 0 }).items x = _
    rw [σ₁.modify_other _ differ, after]
  · by_cases same : x = a
    · subst same
      change ((σ₁.modify x fun it => { it with slabsClsid := 0 }).items x).slabsClsid = 0
      rw [σ₁.modify_self]
    · obtain ⟨p, after⟩ := other x same
      change ((σ₁.modify a fun it => { it with slabsClsid := 0 }).items x).slabsClsid = 0
      rw [σ₁.modify_other _ same, after]
      exact zero
  · by_cases same : x = a
    · subst same
      obtain ⟨p, after⟩ := own
      change ((σ₁.modify x fun it => { it with slabsClsid := 0 }).items x).key = σ.key x
      rw [σ₁.modify_self, after]
      rfl
    · obtain ⟨p, after⟩ := other x same
      change ((σ₁.modify a fun it => { it with slabsClsid := 0 }).items x).key = σ.key x
      rw [σ₁.modify_other _ same, after]
      rfl

/-- The slab without an item that goes back. -/
theorem Owned.unlink (owned : Owned objs σ chain) (table : TableOk hash σ chain) {b : Nat} (member : a ∈ chain b) {σ' : Server}
    (freelist : σ'.freelist = a :: σ.freelist) (first : σ'.first = σ.first)
    (ready : ∀ x, (σ.items x).slabsClsid = 0 → (σ'.items x).slabsClsid = 0) :
    Owned objs σ' (Function.update chain b ((chain b).erase a)) := by
  have busy : a ∉ σ.freelist := fun free => owned.apart a free b member
  refine ⟨?_, ?_, ?_, ?_, ?_, ?_, fun x => ready x (owned.ready x)⟩
  · rw [freelist, List.nodup_cons]
    exact ⟨busy, owned.nodup⟩
  · rw [freelist]
    intro x inside
    rcases List.mem_cons.mp inside with rfl | old
    · exact owned.used b x member
    · exact owned.free x old
  · rw [freelist]
    intro x inside b' linked
    obtain ⟨before, differ⟩ := (table.mem_erase member).mp linked
    rcases List.mem_cons.mp inside with rfl | old
    · exact differ rfl
    · exact owned.apart x old b' before
  · intro b' x inside
    exact owned.used b' x ((table.mem_erase member).mp inside).1
  · rw [first, freelist]
    intro created x inside taken
    rw [List.mem_cons, not_or] at taken
    obtain ⟨b', before⟩ := owned.cover created x inside taken.2
    exact ⟨b', (table.mem_erase member).mpr ⟨before, taken.1⟩⟩
  · rw [first]
    intro fresh
    rw [(owned.fresh fresh).2 b] at member
    cases member

/-! ## The eviction -/

/-- The book without the keys of some objects. -/
def Book.without (book : Book) (keys : List (List UInt8)) : Book := fun k => if k ∈ keys then none else book k

/-- **Objects that are in use are unlinked one after the other**, and no assertion fails. -/
theorem Holds.evictAll (holds : Holds hash σ chain book) (owned : Owned objs σ chain) (created : σ.first = true)
    (long : objs.length ≤ fuel) (victims : List Addr) (distinct : victims.Nodup)
    (inUse : ∀ a ∈ victims, a ∈ objs ∧ a ∉ σ.freelist) (room : σ.freelist.length + victims.length < objs.length) :
    ∃ σ' chain', victims.foldlM (fun σ a => doItemUnlink objs.length fuel σ a (σ.items a).hv) σ = some σ' ∧
      Holds hash σ' chain' (book.without (victims.map σ.key)) ∧ Owned objs σ' chain' ∧
      σ'.freelist = victims.reverse ++ σ.freelist ∧ σ'.first = true ∧ σ'.loading = σ.loading ∧ σ'.evict = σ.evict := by
  induction victims generalizing σ chain book with
  | nil =>
    have same : book.without ([].map σ.key) = book := by
      funext k
      simp [Book.without]
    refine ⟨σ, chain, rfl, ?_, owned, rfl, created, rfl, rfl⟩
    rw [same]
    exact holds
  | cons a victims ih =>
    obtain ⟨inside, busy⟩ := inUse a List.mem_cons_self
    obtain ⟨b, member⟩ := owned.cover created a inside busy
    rw [List.length_cons] at room
    have more : σ.freelist.length + 1 ≠ objs.length := by omega
    obtain ⟨σ₁, unlinked, holds₁, freelist, first, loading, evict, ready, keys⟩ :=
      holds.unlink member busy more (Nat.le_trans (owned.chain_length holds.table b) long)
    have owned₁ := owned.unlink holds.table member freelist first ready
    rw [List.nodup_cons] at distinct
    obtain ⟨σ', chain', run, holds', owned', freelist', first', loading', evict'⟩ := ih holds₁ owned₁ (first.trans created) distinct.2
      (by
        intro x later
        obtain ⟨there, taken⟩ := inUse x (List.mem_cons_of_mem a later)
        refine ⟨there, ?_⟩
        rw [freelist, List.mem_cons, not_or]
        refine ⟨?_, taken⟩
        rintro rfl
        exact distinct.1 later)
      (by rw [freelist, List.length_cons]; omega)
    refine ⟨σ', chain', ?_, ?_, owned', ?_, first', loading'.trans loading, evict'.trans evict⟩
    · rw [List.foldlM_cons, unlinked]
      exact run
    · have same : Book.without (Function.update book (σ.key a) none) (victims.map σ₁.key) = book.without ((a :: victims).map σ.key) := by
        funext k
        have names : victims.map σ₁.key = victims.map σ.key := List.map_congr_left fun x _ => keys x
        rw [Book.without, Book.without, names, List.map_cons]
        by_cases own : k = σ.key a
        · subst own
          simp
        · simp [own]
      rw [← same]
      exact holds'
    · rw [freelist', freelist, List.reverse_cons, List.append_assoc]
      rfl

/-- **`mc_evict`** frees the first `EVICT_NUM` objects. -/
theorem Holds.mcEvict (holds : Holds hash σ chain book) (owned : Owned objs σ chain) (created : σ.first = true)
    (distinct : objs.Nodup) (large : evictNum < objs.length) (long : objs.length ≤ fuel) (full : σ.freelist = []) :
    ∃ σ' chain', mcEvict fuel objs σ = some σ' ∧ Holds hash σ' chain' (book.without ((objs.take evictNum).map σ.key)) ∧
      Owned objs σ' chain' ∧ σ'.freelist = (objs.take evictNum).reverse ∧ σ'.first = true ∧ σ'.loading = σ.loading ∧
      σ'.evict = σ.evict + evictNum := by
  have few : (objs.take evictNum).length = evictNum := List.length_take_of_le (Nat.le_of_lt large)
  obtain ⟨σ', chain', run, holds', owned', freelist, first, loading, evict⟩ := holds.evictAll owned created long (objs.take evictNum)
    (distinct.sublist (List.take_sublist _ _)) (fun a inside => ⟨List.mem_of_mem_take inside, by simp [full]⟩)
    (by rw [full, few]; simpa using large)
  refine ⟨{ σ' with evict := σ'.evict + evictNum }, chain', ?_, ?_, ?_, ?_, first, loading, by rw [← evict]⟩
  · simp [McServer.mcEvict, guard, full, run]
  · exact ⟨⟨holds'.table.path, holds'.table.item, holds'.table.keys⟩, holds'.flags, holds'.absent, holds'.stored⟩
  · exact ⟨owned'.nodup, owned'.free, owned'.apart, owned'.used, owned'.cover, owned'.fresh, owned'.ready⟩
  · rw [full, List.append_nil] at freelist
    exact freelist

/-! ## An object for a new item -/

/-- Where there is no item yet, the memory of a new slab is in order. -/
theorem Holds.newSlab (holds : Holds hash σ chain book) (empty : ∀ b, chain b = []) (free : List Addr) :
    Holds hash { σ with first := true, items := fun _ => Item.zero, freelist := free } chain book := by
  refine ⟨⟨fun b => ?_, ?_, ?_⟩, ?_, ?_, fun k first last present => ?_⟩
  · have path := holds.table.path b
    rw [empty b] at path ⊢
    exact path
  · simp [empty]
  · simp [empty]
  · simp [empty]
  · simp [empty]
  · obtain ⟨a, inside, _⟩ := holds.stored k first last present
    rw [empty] at inside
    cases inside

theorem Owned.newSlab (empty : ∀ b, chain b = []) (distinct : objs.Nodup) :
    Owned objs { σ with first := true, items := fun _ => Item.zero, freelist := objs } chain := by
  refine ⟨distinct, fun a => id, ?_, ?_, fun _ a inside taken => absurd inside taken, nofun, fun _ => rfl⟩
  · simp [empty]
  · simp [empty]

/-- A change that leaves the slab alone. -/
theorem Owned.congr (owned : Owned objs σ chain) {σ' : Server} (freelist : σ'.freelist = σ.freelist) (first : σ'.first = σ.first)
    (ready : ∀ x, (σ'.items x).slabsClsid = (σ.items x).slabsClsid) : Owned objs σ' chain := by
  refine ⟨?_, ?_, ?_, owned.used, ?_, ?_, fun x => (ready x).trans (owned.ready x)⟩
  · rw [freelist]
    exact owned.nodup
  · rw [freelist]
    exact owned.free
  · rw [freelist]
    exact owned.apart
  · rw [freelist, first]
    exact owned.cover
  · rw [freelist, first]
    exact owned.fresh

/-- What an allocation has done to the book: nothing, or the keys of the first `EVICT_NUM` objects are out. -/
def Refilled (objs : List Addr) (σ σ₀ : Server) (book book₀ : Book) : Prop :=
  (σ₀.evict = σ.evict ∧ book₀ = book) ∨
    (σ.freelist = [] ∧ σ.first = true ∧ σ₀.evict = σ.evict + evictNum ∧ σ₀.freelist = (objs.take evictNum).reverse ∧
      book₀ = book.without ((objs.take evictNum).map σ.key))

theorem psSlabAllocItem_cons {rest : List Addr} (free : σ.freelist = a :: rest) :
    psSlabAllocItem fuel objs σ = some (some a, { σ with freelist := rest }) := by
  rw [psSlabAllocItem, if_neg (by simp [free])]
  exact slabAlloc_cons free

/-- **The two tries of `do_item_alloc`** get an object, or there is none left while the server is loading. -/
theorem Holds.itemAlloc (holds : Holds hash σ chain book) (owned : Owned objs σ chain) (distinct : objs.Nodup)
    (large : evictNum < objs.length) (long : objs.length ≤ fuel) :
    (itemAlloc fuel objs σ = some (none, σ) ∧ σ.loading = true) ∨
      ∃ σ₀ chain₀ book₀ a rest, itemAlloc fuel objs σ = some (some a, { σ₀ with freelist := rest }) ∧ σ₀.freelist = a :: rest ∧
        σ₀.first = true ∧ σ₀.loading = σ.loading ∧ Holds hash σ₀ chain₀ book₀ ∧ Owned objs σ₀ chain₀ ∧ Refilled objs σ σ₀ book book₀ := by
  cases free : σ.freelist with
  | cons a rest =>
    have created : σ.first = true := by
      by_contra fresh
      rw [(owned.fresh (by simpa using fresh)).1] at free
      cases free
    refine Or.inr ⟨σ, chain, book, a, rest, ?_, free, created, rfl, holds, owned, Or.inl ⟨rfl, rfl⟩⟩
    simp [McServer.itemAlloc, psSlabAllocItem_cons free]
  | nil =>
    cases created : σ.first with
    | false =>
      obtain ⟨a, rest, order⟩ : ∃ a rest, objs = a :: rest := List.exists_cons_of_ne_nil (by rintro rfl; simp at large)
      have empty := (owned.fresh created).2
      refine Or.inr ⟨{ σ with first := true, items := fun _ => Item.zero, freelist := objs }, chain, book, a, rest, ?_, order, rfl, rfl,
        holds.newSlab empty objs, Owned.newSlab empty distinct, Or.inl ⟨rfl, rfl⟩⟩
      simp [McServer.itemAlloc, psSlabAllocItem, free, mcAllocPages, created, guard, order, slabAlloc]
    | true =>
      cases loading : σ.loading with
      | true =>
        refine Or.inl ⟨?_, rfl⟩
        simp [McServer.itemAlloc, psSlabAllocItem, free, mcAllocPages, created, loading]
      | false =>
        obtain ⟨σ₀, chain₀, evicted, holds₀, owned₀, freelist, first, same, count⟩ := holds.mcEvict owned created distinct large long free
        have some_free : σ₀.freelist ≠ [] := by
          rw [freelist]
          simp only [ne_eq, List.reverse_eq_nil_iff, List.take_eq_nil_iff, not_or]
          refine ⟨by decide, ?_⟩
          rintro rfl
          simp at large
        obtain ⟨a, rest, next⟩ := List.exists_cons_of_ne_nil some_free
        have firstTry : psSlabAllocItem fuel objs σ = some (none, σ₀) := by
          simp [psSlabAllocItem, free, mcAllocPages, created, loading, evicted]
        refine Or.inr ⟨σ₀, chain₀, _, a, rest, ?_, next, first, same.trans loading, holds₀, owned₀,
          Or.inr ⟨free, created, count, freelist, rfl⟩⟩
        simp [McServer.itemAlloc, firstTry, psSlabAllocItem_cons next]

/-- The slab with an object that has been linked in. -/
theorem Owned.link (owned : Owned objs σ chain) {rest : List Addr} (free : σ.freelist = a :: rest) {b : Nat} {σ' : Server}
    (freelist : σ'.freelist = rest) (created : σ'.first = true)
    (ready : ∀ x, (σ.items x).slabsClsid = 0 → (σ'.items x).slabsClsid = 0) (first : σ.first = true) :
    Owned objs σ' (Function.update chain b (a :: chain b)) := by
  have distinct := owned.nodup
  rw [free, List.nodup_cons] at distinct
  have mem : ∀ {b' x}, x ∈ Function.update chain b (a :: chain b) b' → x = a ∨ x ∈ chain b' := by
    intro b' x inside
    by_cases same : b' = b
    · subst same
      rwa [Function.update_self, List.mem_cons] at inside
    · rw [Function.update_of_ne same] at inside
      exact Or.inr inside
  refine ⟨?_, ?_, ?_, ?_, ?_, ?_, fun x => ready x (owned.ready x)⟩
  · rw [freelist]
    exact distinct.2
  · rw [freelist]
    intro x inside
    exact owned.free x (by simp [free, inside])
  · rw [freelist]
    intro x inside b' linked
    rcases mem linked with rfl | old
    · exact distinct.1 inside
    · exact owned.apart x (by simp [free, inside]) b' old
  · intro b' x inside
    rcases mem inside with rfl | old
    · exact owned.free x (by simp [free])
    · exact owned.used b' x old
  · rw [freelist]
    intro _ x inside taken
    by_cases same : x = a
    · subst same
      exact ⟨b, by simp⟩
    · obtain ⟨b', old⟩ := owned.cover first x inside (by simp [free, same, taken])
      refine ⟨b', ?_⟩
      by_cases home : b' = b
      · subst home
        simp [old]
      · rwa [Function.update_of_ne home]
  · rw [created]
    nofun

/-! ## The log and the book -/

theorem latest_append (log events : List Event) (k : List UInt8) :
    latest (log ++ events) k = events.foldl (Event.apply k) (latest log k) := by
  rw [latest, List.foldl_append]
  rfl

theorem latest_stored (log : List Event) (key data k : List UInt8) :
    latest (log ++ [.stored key data]) k = Function.update (latest log) key (some data) k := by
  rw [latest_append, List.foldl_cons, List.foldl_nil, Event.apply]
  by_cases same : key = k
  · subst same
    simp
  · rw [if_neg same, Function.update_of_ne (Ne.symm same)]

theorem latest_evicted (log : List Event) (keys : List (List UInt8)) (k : List UInt8) :
    latest (log ++ keys.map .evicted) k = if k ∈ keys then none else latest log k := by
  rw [latest_append]
  generalize latest log k = value
  induction keys generalizing value with
  | nil => simp
  | cons key keys ih =>
    rw [List.map_cons, List.foldl_cons, ih, Event.apply]
    by_cases same : key = k
    · subst same
      simp
    · simp [same, Ne.symm same]

/-- The server, its log and its book tell the same. -/
structure Cached (hash : List UInt8 → Nat) (objs : List Addr) (σ : Server) (log : List Event) (chain : Nat → List Addr) (book : Book) :
    Prop where
  holds : Holds hash σ chain book
  owned : Owned objs σ chain
  values : ∀ k, (book k).map Prod.snd = latest log k
  whole : ∀ k first last, book k = some (first, last) → first.length = vLength ∧ last.length = vLength

theorem Cached.init : Cached hash objs serverInit [] (fun _ => []) fun _ => none := by
  refine ⟨⟨⟨fun b => rfl, ?_, ?_⟩, ?_, ?_, ?_⟩, ⟨?_, ?_, ?_, ?_, ?_, ?_, fun _ => rfl⟩, fun k => rfl, ?_⟩
  all_goals simp [serverInit]

/-- What a message is answered with, and what it leaves. -/
structure Served (objs : List Addr) (msg : Msg) (σ : Server) (log : List Event) (reply : Reply) (σ' : Server) : Prop where
  get : ∀ k, msg = .get k → reply = (match latest log k with | some data => .getOk data | none => .getFail)
  set : ∀ key data, msg = .set key data → σ.loading = false → reply = .setOk
  loading : σ'.loading = false ↔ σ.loading = false ∨ msg = .begin
  -- an eviction comes from a full slab, and frees its first objects; one of them is in use again
  evict : σ'.evict ≠ σ.evict → σ.freelist = [] ∧ ∃ a, (objs.take evictNum).reverse = a :: σ'.freelist

section
variable {log : List Event} {key data : List UInt8}

/-- **A get** answers with the value that the log tells. -/
theorem Cached.get (cached : Cached hash objs σ log chain book) (length : key.length = keyLength) (long : objs.length < fuel) :
    ∃ reply, handle hash fuel objs σ (.get key) = some (reply, σ) ∧ Served objs (.get key) σ log reply σ := by
  have enough : (chain (bucketOf (hash key))).length < fuel :=
    Nat.lt_of_le_of_lt (cached.owned.chain_length cached.holds.table _) long
  have value := cached.values key
  have others : ∀ reply, reply = (match latest log key with | some data => Reply.getOk data | none => .getFail) →
      Served objs (.get key) σ log reply σ := by
    intro reply answer
    refine ⟨fun k same => ?_, nofun, by simp, fun changed => absurd rfl changed⟩
    cases same
    exact answer
  cases known : book key with
  | none =>
    rw [known] at value
    refine ⟨.getFail, ?_, others _ (by rw [← value]; rfl)⟩
    simp [handle, mcGetKeyExt, cached.holds.find_none length enough known]
  | some values =>
    obtain ⟨first, last⟩ := values
    obtain ⟨a, _, found, _, stores⟩ := cached.holds.find length enough known
    obtain ⟨one, two⟩ := cached.whole key first last known
    rw [known] at value
    refine ⟨.getOk last, ?_, others _ (by rw [← value]; rfl)⟩
    have answer : (σ.items a).load (σ.items a).dataOff ((σ.items a).nbytes - 2) = last := by
      rw [stores.nbytes, Nat.add_sub_cancel, one, ← two]
      exact stores.data
    simp [handle, mcGetKeyExt, found, answer]

/-- The events of an allocation, in the log and in the book. -/
theorem Refilled.values {σ₀ σ' : Server} {book₀ : Book} (refilled : Refilled objs σ σ₀ book book₀)
    (values : ∀ k, (book k).map Prod.snd = latest log k) (same : σ'.evict = σ₀.evict) (k : List UInt8) :
    (book₀ k).map Prod.snd =
      latest (log ++ if σ'.evict = σ.evict then [] else (objs.take evictNum).map fun a => .evicted (σ.key a)) k := by
  rcases refilled with ⟨unchanged, rfl⟩ | ⟨_, _, count, _, rfl⟩
  · rw [if_pos (same.trans unchanged), List.append_nil]
    exact values k
  · have changed : σ'.evict ≠ σ.evict := by
      rw [same, count]
      unfold evictNum
      omega
    have keys : (objs.take evictNum).map (fun a => Event.evicted (σ.key a)) = ((objs.take evictNum).map σ.key).map .evicted := by
      rw [List.map_map]
      rfl
    rw [if_neg changed, keys, latest_evicted, Book.without]
    by_cases gone : k ∈ (objs.take evictNum).map σ.key
    · rw [if_pos gone, if_pos gone]
      rfl
    · rw [if_neg gone, if_neg gone]
      exact values k

theorem Refilled.whole {σ₀ : Server} {book₀ : Book} (refilled : Refilled objs σ σ₀ book book₀) {k first last : List UInt8}
    (present : book₀ k = some (first, last)) : book k = some (first, last) := by
  rcases refilled with ⟨_, rfl⟩ | ⟨_, _, _, _, rfl⟩
  · exact present
  · rw [Book.without] at present
    split_ifs at present with gone
    exact present

/-- **A set of a key that is there** is written over it, -/
theorem Cached.set_known (cached : Cached hash objs σ log chain book) (length : key.length = keyLength) (size : data.length = vLength)
    (long : objs.length < fuel) {first last : List UInt8} (known : book key = some (first, last)) :
    ∃ reply σ' chain' book', handle hash fuel objs σ (.set key data) = some (reply, σ') ∧ Served objs (.set key data) σ log reply σ' ∧
      Cached hash objs σ' (log ++ eventsOf objs σ (.set key data) reply σ') chain' book' := by
  have enough := Nat.lt_of_le_of_lt (cached.owned.chain_length cached.holds.table (bucketOf (hash key))) long
  obtain ⟨a, _, call, holds⟩ := cached.holds.setKey_known (McServer.itemAlloc fuel objs) (fun σ => some (false, σ)) length enough known data
  refine ⟨.setOk, setInPlace σ a data data.length, chain, _, ?_, ⟨nofun, fun _ _ _ _ => rfl, ?_, fun changed => absurd rfl changed⟩,
    ⟨holds, ?_, fun k => ?_, fun k first' last' present => ?_⟩⟩
  · simp [handle, mcSetKeyExt, call]
  · simp [setInPlace, Server.modify, Server.setItem]
  · refine cached.owned.congr rfl rfl fun x => ?_
    by_cases same : x = a
    · subst same
      rw [setInPlace, σ.modify_self]
      rfl
    · rw [setInPlace, σ.modify_other _ same]
  · have unchanged : (setInPlace σ a data data.length).evict = σ.evict := rfl
    rw [eventsOf, if_pos unchanged, List.nil_append, latest_stored]
    by_cases same : k = key
    · subst same
      simp
    · rw [Function.update_of_ne same, Function.update_of_ne same]
      exact cached.values k
  · by_cases same : k = key
    · subst same
      rw [Function.update_self, Option.some.injEq, Prod.mk.injEq] at present
      obtain ⟨rfl, rfl⟩ := present
      exact ⟨(cached.whole k _ _ known).1, size⟩
    · rw [Function.update_of_ne same] at present
      exact cached.whole k first' last' present

/-- **and one of a new key** takes an object, unless the server is loading and there is none. -/
theorem Cached.set_new (cached : Cached hash objs σ log chain book) (length : key.length = keyLength) (size : data.length = vLength)
    (distinct : objs.Nodup) (large : evictNum < objs.length) (long : objs.length < fuel) (unknown : book key = none) :
    ∃ reply σ' chain' book', handle hash fuel objs σ (.set key data) = some (reply, σ') ∧ Served objs (.set key data) σ log reply σ' ∧
      Cached hash objs σ' (log ++ eventsOf objs σ (.set key data) reply σ') chain' book' := by
  have enough := Nat.lt_of_le_of_lt (cached.owned.chain_length cached.holds.table (bucketOf (hash key))) long
  rcases cached.holds.itemAlloc cached.owned distinct large (Nat.le_of_lt long) with ⟨null, loading⟩ |
    ⟨σ₀, chain₀, book₀, a, rest, got, free, created, load, holds₀, owned₀, refilled⟩
  · refine ⟨.setFail, σ, chain, book, ?_, ⟨nofun, fun _ _ _ ready => ?_, by simp, fun changed => absurd rfl changed⟩,
      cached.holds, cached.owned, fun k => ?_, cached.whole⟩
    · simp [handle, mcSetKeyExt, setKey, cached.holds.find_none length enough unknown, null, guard, loading]
    · rw [loading] at ready
      cases ready
    · simpa [eventsOf] using cached.values k
  · have unknown₀ : book₀ key = none := by
      cases present : book₀ key with
      | none => rfl
      | some values =>
        rw [refilled.whole present] at unknown
        cases unknown
    have popped : Holds hash { σ₀ with freelist := rest } chain₀ book₀ :=
      ⟨⟨holds₀.table.path, holds₀.table.item, holds₀.table.keys⟩, holds₀.flags, holds₀.absent, holds₀.stored⟩
    obtain ⟨σ', call, holds, freelist, first, loading, evict, ready⟩ := cached.holds.setKey_new (fun σ => some (false, σ)) length
      (Nat.le_of_eq size) enough unknown got popped unknown₀ (owned₀.apart a (by simp [free])) (owned₀.ready a)
    refine ⟨.setOk, σ', _, _, ?_, ⟨nofun, fun _ _ _ _ => rfl, ?_, fun changed => ?_⟩,
      ⟨holds, owned₀.link free freelist (first.trans created) ready created, fun k => ?_, fun k first' last' present => ?_⟩⟩
    · simp [handle, mcSetKeyExt, call]
    · rw [loading, show ({ σ₀ with freelist := rest } : Server).loading = σ₀.loading from rfl, load]
      simp
    · rcases refilled with ⟨unchanged, _⟩ | ⟨full, _, _, freed, _⟩
      · exact absurd (evict.trans unchanged) changed
      · exact ⟨full, a, by rw [← freed, free, freelist]⟩
    · rw [eventsOf, ← List.append_assoc, latest_stored]
      by_cases same : k = key
      · subst same
        simp
      · rw [Function.update_of_ne same, Function.update_of_ne same]
        exact refilled.values cached.values evict k
    · by_cases same : k = key
      · subst same
        rw [Function.update_self, Option.some.injEq, Prod.mk.injEq] at present
        obtain ⟨rfl, rfl⟩ := present
        exact ⟨size, size⟩
      · rw [Function.update_of_ne same] at present
        exact cached.whole k first' last' (refilled.whole present)

/-- **One message**, whatever it is. -/
theorem Cached.step (cached : Cached hash objs σ log chain book) (distinct : objs.Nodup) (large : evictNum < objs.length)
    (long : objs.length < fuel) {msg : Msg} (admissible : msg.Admissible) :
    ∃ reply σ' chain' book', handle hash fuel objs σ msg = some (reply, σ') ∧ Served objs msg σ log reply σ' ∧
      Cached hash objs σ' (log ++ eventsOf objs σ msg reply σ') chain' book' := by
  cases msg with
  | set key data =>
    cases known : book key with
    | none => exact cached.set_new admissible.1 admissible.2 distinct large long known
    | some values => exact cached.set_known admissible.1 admissible.2 long known
  | get key =>
    obtain ⟨reply, call, served⟩ := cached.get admissible long
    refine ⟨reply, σ, chain, book, call, served, cached.holds, cached.owned, fun k => ?_, cached.whole⟩
    simpa [eventsOf] using cached.values k
  | begin =>
    refine ⟨.noReply, { σ with loading := false }, chain, book, rfl, ⟨nofun, nofun, by simp, fun changed => absurd rfl changed⟩, ?_,
      cached.owned.congr rfl rfl fun _ => rfl, fun k => ?_, cached.whole⟩
    · exact ⟨⟨cached.holds.table.path, cached.holds.table.item, cached.holds.table.keys⟩, cached.holds.flags, cached.holds.absent,
        cached.holds.stored⟩
    · simpa [eventsOf] using cached.values k

/-- **Any number of messages** are handled. -/
theorem serve_cached (distinct : objs.Nodup) (large : evictNum < objs.length) (long : objs.length < fuel) (msgs : List Msg)
    (admissible : ∀ msg ∈ msgs, msg.Admissible) :
    ∃ σ log chain book, serve hash fuel objs msgs = some (σ, log) ∧ Cached hash objs σ log chain book ∧
      (σ.loading = false ↔ .begin ∈ msgs) := by
  induction msgs using List.reverseRecOn with
  | nil => exact ⟨serverInit, [], _, _, rfl, Cached.init, by simp [serverInit]⟩
  | append_singleton msgs msg ih =>
    obtain ⟨σ, log, chain, book, run, cached, loading⟩ := ih fun m inside => admissible m (by simp [inside])
    obtain ⟨reply, σ', chain', book', call, served, next⟩ := cached.step distinct large long (admissible msg (by simp))
    refine ⟨σ', _, chain', book', ?_, next, ?_⟩
    · rw [serve] at run ⊢
      rw [List.foldlM_append, run]
      simp [serveOne, call]
    · rw [served.loading, loading, List.mem_append, List.mem_singleton, eq_comm]

end

end

/-- The slab has handed out the object. -/
structure Allocated (objs : List Addr) (σ : Server) (a : Addr) : Prop where
  created : σ.first = true
  object : a ∈ objs
  busy : a ∉ σ.freelist

/-- The buckets hold what is allocated, each object in the one of its hash value, no key twice. -/
structure AllLinked (objs : List Addr) (σ : Server) (chain : Nat → List Addr) : Prop where
  path : ∀ b, Path σ.link (.head b) (chain b)
  one : ∀ a b, a ∈ chain b ↔ Allocated objs σ a ∧ b = bucketOf (σ.items a).hv
  keys : ∀ a a' b b', a ∈ chain b → a' ∈ chain b' → σ.key a = σ.key a' → a = a'

theorem Cached.allLinked {hash : List UInt8 → Nat} {objs : List Addr} {σ : Server} {log : List Event} {chain : Nat → List Addr} {book : Book}
    (cached : Cached hash objs σ log chain book) : AllLinked objs σ chain := by
  have home : ∀ a b, a ∈ chain b → b = bucketOf (σ.items a).hv := by
    intro a b inside
    have filed := cached.holds.table.item b a inside
    rw [filed.hv]
    exact filed.home.symm
  refine ⟨cached.holds.table.path, fun a b => ⟨fun inside => ⟨⟨?_, cached.owned.used b a inside, fun free => ?_⟩, home a b inside⟩, ?_⟩, ?_⟩
  · by_contra fresh
    rw [(cached.owned.fresh (by simpa using fresh)).2 b] at inside
    cases inside
  · exact cached.owned.apart a free b inside
  · rintro ⟨allocated, rfl⟩
    obtain ⟨b, inside⟩ := cached.owned.cover allocated.created a allocated.object allocated.busy
    rwa [← home a b inside]
  · intro a a' b b' here there same
    have bucket : b = b' := by
      have one : bucketOf (hash (σ.key a)) = b := (cached.holds.table.item b a here).home
      have two : bucketOf (hash (σ.key a')) = b' := (cached.holds.table.item b' a' there).home
      rw [← one, ← two, same]
    subst bucket
    exact cached.holds.table.key_inj here there same

/-- **The server is a cache.** Whatever messages it has handled, no assertion has failed, the buckets hold the objects that are
allocated, and the next message, whatever it is, is handled as the log of what was stored and evicted tells. -/
theorem mp_cache (hash : List UInt8 → Nat) (objs : List Addr) (distinct : objs.Nodup) (large : evictNum < objs.length) (fuel : Nat)
    (long : objs.length < fuel) (msgs : List Msg) (admissible : ∀ msg ∈ msgs, msg.Admissible) :
    ∃ σ log, serve hash fuel objs msgs = some (σ, log) ∧ (∃ chain, AllLinked objs σ chain) ∧ (σ.loading = false ↔ .begin ∈ msgs) ∧
      ∀ msg : Msg, msg.Admissible →
        ∃ reply σ', handle hash fuel objs σ msg = some (reply, σ') ∧ Served objs msg σ log reply σ' := by
  obtain ⟨σ, log, chain, book, run, cached, loading⟩ := serve_cached distinct large long msgs admissible
  refine ⟨σ, log, run, ⟨chain, cached.allLinked⟩, loading, fun msg next => ?_⟩
  obtain ⟨reply, σ', _, _, call, served, _⟩ := cached.step distinct large long next
  exact ⟨reply, σ', call, served⟩

/-- A key that ends in a number, and its bucket. -/
def numbered (i : Nat) : List UInt8 := List.replicate 15 0 ++ [UInt8.ofNat i]
def lastByte (key : List UInt8) : Nat := (key.getD 15 0).toNat

/-- 31 keys are set, the last of them a second time, and then one more. -/
def overfull : List Msg :=
  .begin :: (List.range 31).map (fun i => .set (numbered i) (List.replicate 32 1)) ++
    [.set (numbered 30) (List.replicate 32 2), .set (numbered 31) (List.replicate 32 3)]

/-- In a slab of 31 objects the last set evicts 30 keys: the first is gone, and the one that was set twice has its second value. -/
theorem mp_cache_evicts : ∃ σ log, serve lastByte 32 (List.range 31) overfull = some (σ, log) ∧ σ.evict = evictNum ∧
    (∃ σ', handle lastByte 32 (List.range 31) σ (.get (numbered 0)) = some (.getFail, σ')) ∧
    ∃ σ', handle lastByte 32 (List.range 31) σ (.get (numbered 30)) = some (.getOk (List.replicate 32 2), σ') := by
  have admissible : ∀ msg ∈ overfull, msg.Admissible := by
    intro msg member
    simp only [overfull, List.cons_append, List.mem_cons, List.mem_append, List.mem_map, List.not_mem_nil, or_false] at member
    rcases member with rfl | ⟨i, _, rfl⟩ | rfl | rfl
    · trivial
    all_goals exact ⟨by simp [numbered, keyLength], by simp [vLength]⟩
  obtain ⟨σ, log, run, _, _, next⟩ := mp_cache lastByte (List.range 31) List.nodup_range (by decide) 32 (by decide) overfull admissible
  have told : ((serve lastByte 32 (List.range 31) overfull).any fun r =>
      r.1.evict == evictNum && latest r.2 (numbered 0) == none && latest r.2 (numbered 30) == some (List.replicate 32 2)) = true := by
    decide +kernel
  simp only [run, Option.any_some, Bool.and_eq_true, beq_iff_eq] at told
  obtain ⟨⟨evicted, gone⟩, kept⟩ := told
  obtain ⟨reply, σ₁, call, served⟩ := next (.get (numbered 0)) (by simp [Msg.Admissible, numbered, keyLength])
  obtain ⟨reply', σ₂, call', served'⟩ := next (.get (numbered 30)) (by simp [Msg.Admissible, numbered, keyLength])
  rw [served.get _ rfl, gone] at call
  rw [served'.get _ rfl, kept] at call'
  exact ⟨σ, log, run, evicted, ⟨σ₁, call⟩, σ₂, call'⟩

end BiProject.McServer
