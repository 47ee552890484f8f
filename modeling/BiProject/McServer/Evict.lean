import BiProject.McServer.Table
import Mathlib.Data.Nat.Find

/-!
# The victims of `2pc_mc`

`assoc_evict` looks for a bucket with an item, and `mc_evict` unlinks the items of `EVICT_NUM` buckets from there on.
The probe goes two buckets on at a time, over the buckets from 1 on: bucket 0 is what a transaction that evicts
nothing sends, and is never chosen. The number of the other buckets is odd, so that the probe comes by all of them.
-/

namespace BiProject.McServer
set_option autoImplicit false
open BiProject.Lib.Chains

/-! ## `assoc_evict` -/

/-- `EVICT_NUM` of `2pc_mc`. -/
def evictNum2pc : Nat := 20

/-- The bucket behind `i` on the way of the probe; `i + 1` is a `uint32_t`. -/
def probe (i : Nat) : Nat := (i + 1) % 2 ^ 32 % (hashsize - 1) + 1

/-- The loop of `assoc_evict`; it fails where it runs out of fuel. -/
def assocEvictLoop (σ : Server) (hv : Nat) : Nat → Nat → Option Nat
  | 0, _ => none
  | fuel + 1, i =>
    if i = hv then some i
    else if (σ.heads i).isSome then some i
    else assocEvictLoop σ hv fuel (probe i)

def assocEvict (fuel : Nat) (σ : Server) (hv : Nat) : Option Nat := assocEvictLoop σ hv fuel (probe hv)

/-! ## `mc_evict` -/

/-- The inner loop of `mc_evict`: the server after it, and whether it has come to its end. It stops where an assertion
fails. -/
def evictChain (nobjs fuel hv : Nat) : Nat → Server → Option Addr → Server × Bool
  | 0, σ, _ => (σ, false)
  | _ + 1, σ, none => (σ, true)
  | n + 1, σ, some a =>
    let next := (σ.items a).hNext
    match unlinkTable fuel σ a hv with
    | none => (σ, false)
    | some σ =>
      match doItemRemoveFree nobjs σ a with
      | none => (σ, false)
      | some σ => evictChain nobjs fuel hv n { σ with evict := σ.evict + 1 } next

/-- The outer loop, over `n` buckets. -/
def evictBuckets (nobjs fuel : Nat) : Nat → Server → Nat → Server × Bool
  | 0, σ, _ => (σ, true)
  | n + 1, σ, hv =>
    match evictChain nobjs fuel hv fuel σ (σ.heads hv) with
    | (σ, false) => (σ, false)
    | (σ, true) => evictBuckets nobjs fuel n σ ((hv + 1) % hashsize)

def mcEvict2pc (nobjs fuel : Nat) (σ : Server) (hv : Nat) : Server × Bool :=
  if hv = 0 then (σ, true) else evictBuckets nobjs fuel evictNum2pc σ hv

/-! ## The way of the probe -/

theorem hashsize_eq : hashsize = 4194304 := by simp [hashsize, hashpower]

/-- Where the probe is after `n` steps. -/
def probeAt (hv n : Nat) : Nat := ((hv + 1) % 2 ^ 32 % (hashsize - 1) + 2 * n) % (hashsize - 1) + 1

theorem probeAt_zero (hv : Nat) : probeAt hv 0 = probe hv := by
  simp [probeAt, probe]

theorem probeAt_succ (hv n : Nat) : probeAt hv (n + 1) = probe (probeAt hv n) := by
  rw [probe, probeAt, probeAt, hashsize_eq]
  omega

theorem probeAt_range (hv n : Nat) : 0 < probeAt hv n ∧ probeAt hv n < hashsize := by
  rw [probeAt, hashsize_eq]
  omega

/-- The probe comes by every bucket but 0, -/
theorem probeAt_reaches (hv : Nat) {b : Nat} (positive : 0 < b) (bound : b < hashsize) : ∃ n < hashsize - 1, probeAt hv n = b := by
  -- 2097152 is the inverse of 2
  refine ⟨(b - 1 + (hashsize - 1) - (hv + 1) % 2 ^ 32 % (hashsize - 1)) * 2097152 % (hashsize - 1), ?_, ?_⟩
  · exact Nat.mod_lt _ (by rw [hashsize_eq]; decide)
  · rw [probeAt, hashsize_eq]
    rw [hashsize_eq] at bound
    omega

/-- and by the one it came from last of all. -/
theorem probeAt_ne {hv n : Nat} (early : n + 1 < hashsize - 1) : probeAt hv n ≠ hv := by
  intro same
  have range := probeAt_range hv n
  rw [same] at range
  have small : (hv + 1) % 2 ^ 32 = hv + 1 := Nat.mod_eq_of_lt (by rw [hashsize_eq] at range; omega)
  rw [probeAt, small, Nat.mod_add_mod] at same
  -- the way back is a multiple of the odd number of buckets, and too short for it
  have back : hashsize - 1 ∣ 2 * (n + 1) := by
    have rounds : hashsize - 1 ∣ hv + 1 + 2 * n - (hv + 1 + 2 * n) % (hashsize - 1) := Nat.dvd_sub_mod _
    generalize (hv + 1 + 2 * n) % (hashsize - 1) = rest at same rounds
    rwa [show hv + 1 + 2 * n - rest = 2 * (n + 1) by omega] at rounds
  have odd : Nat.Coprime (hashsize - 1) 2 := by
    rw [hashsize_eq]
    decide
  exact absurd (Nat.le_of_dvd (Nat.succ_pos n) (odd.dvd_of_dvd_mul_left back)) (Nat.not_le_of_lt early)

/-! ## The search -/

section
variable {σ : Server} {hv fuel : Nat}

/-- The loop comes to the first bucket on the way where it stops. -/
theorem assocEvictLoop_stops {n : Nat} (goes : ∀ k < n, probeAt hv k ≠ hv ∧ (σ.heads (probeAt hv k)).isSome = false)
    (stops : probeAt hv n = hv ∨ (σ.heads (probeAt hv n)).isSome = true) {k : Nat} (before : k ≤ n) (enough : n - k < fuel) :
    assocEvictLoop σ hv fuel (probeAt hv k) = some (probeAt hv n) := by
  induction fuel generalizing k with
  | zero => omega
  | succ fuel ih =>
    rw [assocEvictLoop]
    rcases Nat.lt_or_eq_of_le before with less | rfl
    · obtain ⟨differ, empty⟩ := goes k less
      rw [if_neg differ, if_neg (by simp [empty]), ← probeAt_succ]
      exact ih less (by omega)
    · rcases stops with own | item
      · rw [if_pos own]
      · rw [if_pos item, ite_self]

/-- **`assoc_evict` finds a victim**, if there is one beyond bucket 0. -/
theorem assocEvict_finds {b : Nat} (positive : 0 < b) (bound : b < hashsize) (item : (σ.heads b).isSome = true) (enough : hashsize ≤ fuel) :
    ∃ i, assocEvict fuel σ hv = some i ∧ 0 < i ∧ i < hashsize ∧ (σ.heads i).isSome = true := by
  obtain ⟨m, within, reached⟩ := probeAt_reaches hv positive bound
  have some_item : ∃ n, (σ.heads (probeAt hv n)).isSome = true := ⟨m, by rw [reached]; exact item⟩
  have first := Nat.find_spec some_item
  have least : Nat.find some_item ≤ m := Nat.find_min' some_item (by rw [reached]; exact item)
  refine ⟨probeAt hv (Nat.find some_item), ?_, (probeAt_range _ _).1, (probeAt_range _ _).2, first⟩
  rw [assocEvict, ← probeAt_zero]
  refine assocEvictLoop_stops (fun k less => ⟨probeAt_ne (by omega), ?_⟩) (Or.inr first) (Nat.zero_le _) (by omega)
  simpa using Nat.find_min some_item less

/-- With items in bucket 0 alone it goes round for ever, where the probe does not come by the hash value, -/
theorem assocEvict_none (empty : ∀ b, 0 < b → b < hashsize → σ.heads b = none) (outside : hv = 0 ∨ hashsize ≤ hv) :
    assocEvict fuel σ hv = none := by
  have round : ∀ n, assocEvictLoop σ hv fuel (probeAt hv n) = none := by
    induction fuel with
    | zero => exact fun n => rfl
    | succ fuel ih =>
      intro n
      have range := probeAt_range hv n
      rw [assocEvictLoop, if_neg (by omega), empty _ range.1 range.2, ← probeAt_succ]
      exact ih (n + 1)
  rw [assocEvict, ← probeAt_zero]
  exact round 0

/-- and elsewhere returns the bucket of the hash value, which is empty. -/
theorem assocEvict_own (empty : ∀ b, 0 < b → b < hashsize → σ.heads b = none) (positive : 0 < hv) (bound : hv < hashsize)
    (enough : hashsize ≤ fuel) : assocEvict fuel σ hv = some hv := by
  have last : probeAt hv (hashsize - 2) = hv := by
    obtain ⟨n, within, back⟩ := probeAt_reaches hv positive bound
    have late : ¬ n + 1 < hashsize - 1 := fun early => probeAt_ne early back
    rwa [show hashsize - 2 = n by omega]
  rw [assocEvict, ← probeAt_zero]
  conv_rhs => rw [← last]
  refine assocEvictLoop_stops (fun k less => ⟨probeAt_ne (by omega), ?_⟩) (Or.inl last) (Nat.zero_le _) ?_
  · rw [empty _ (probeAt_range hv k).1 (probeAt_range hv k).2]
    rfl
  · rw [hashsize_eq] at enough ⊢
    omega

end

/-! ## The items of a bucket -/

/-- The buckets are chains of linked items that are not free, and have none in common. -/
structure Buckets (σ : Server) (chain : Nat → List Addr) : Prop where
  path : ∀ b, Path σ.link (.head b) (chain b)
  linked : ∀ b, ∀ a ∈ chain b, (σ.items a).linked = true ∧ (σ.items a).slabbed = false ∧ a ∉ σ.freelist
  apart : ∀ b b' a, a ∈ chain b → a ∈ chain b' → b = b'

section
variable {σ : Server} {chain : Nat → List Addr} {a : Addr} {rest : List Addr} {b nobjs fuel : Nat}

theorem bucketOf_of_lt (bound : b < hashsize) : bucketOf b = b := by
  rw [bucketOf, hashmask, hashsize]
  exact Nat.and_two_pow_sub_one_of_lt_two_pow bound

/-- The first item of a bucket has its own key. -/
theorem Item.matches_self (it : Item) : it.matches (it.load it.keyOff it.nkey) it.nkey = true := by
  have whole : (it.load it.keyOff it.nkey).take it.nkey = it.load it.keyOff it.nkey :=
    List.take_of_length_le (by rw [Item.load_length])
  simp [Item.matches, whole]

/-- The other items, when the first of a bucket is out. -/
theorem Buckets.of_rest (ok : Buckets σ chain) (here : chain b = a :: rest) {b' : Nat} {x : Addr}
    (inside : x ∈ Function.update chain b rest b') : x ∈ chain b' ∧ x ≠ a := by
  have distinct := (ok.path b).nodup
  rw [here, List.nodup_cons] at distinct
  by_cases same : b' = b
  · subst same
    rw [Function.update_self] at inside
    refine ⟨by simp [here, inside], ?_⟩
    rintro rfl
    exact distinct.1 inside
  · rw [Function.update_of_ne same] at inside
    refine ⟨inside, ?_⟩
    rintro rfl
    exact same (ok.apart b' b x inside (by simp [here]))

/-- **`do_item_unlink` of the first item of a bucket** takes it out. -/
theorem Buckets.unlinkTable (ok : Buckets σ chain) (bound : b < hashsize) (here : chain b = a :: rest) (some_fuel : 0 < fuel) :
    ∃ σ', unlinkTable fuel σ a b = some σ' ∧ Buckets σ' (Function.update chain b rest) ∧
      σ'.link (.head b) = rest.head? ∧ σ'.freelist = σ.freelist ∧ (σ'.items a).slabbed = false := by
  have path := ok.path b
  rw [here] at path
  obtain ⟨linked, slabbed, busy⟩ := ok.linked b a (by simp [here])
  obtain ⟨fuel, rfl⟩ : ∃ n, fuel = n + 1 := ⟨fuel - 1, by omega⟩
  have links : (σ.modify a fun it => { it with linked := false }).link = σ.link := σ.modify_link_same rfl
  have found : hashitemBeforeLoop (σ.modify a fun it => { it with linked := false })
      ((σ.items a).load (σ.items a).keyOff (σ.items a).nkey) (σ.items a).nkey (fuel + 1) (.head b) = some (.head b) := by
    rw [hashitemBeforeLoop, links, path.1]
    simp only [Server.modify_self]
    exact if_pos (σ.items a).matches_self
  have next : (σ.items a).hNext = rest.head? := path.2.link_eq
  refine ⟨(σ.modify a fun it => { it with linked := false }).store (.head b) (σ.items a).hNext, ?_,
    ⟨fun b' => ?_, fun b' x inside => ?_, fun b₁ b₂ x one two => ?_⟩, ?_, rfl, ?_⟩
  · simp only [McServer.unlinkTable, guard, linked, if_true, Option.bind_eq_bind, Option.pure_def, Option.bind_some, assocDelete,
      bucketOf_of_lt bound, Server.modify_self]
    rw [show ({ σ.items a with linked := false } : Item).load ({ σ.items a with linked := false } : Item).keyOff
      (σ.items a).nkey = (σ.items a).load (σ.items a).keyOff (σ.items a).nkey from rfl, found]
    simp [links, path.1]
  · rw [Server.store_link, links, next]
    by_cases same : b' = b
    · subst same
      rw [Function.update_self]
      exact path.2.moved (Function.update_self _ _ _) fun x _ => Function.update_of_ne (by simp) _ _
    · rw [Function.update_of_ne same]
      exact (ok.path b').frame (Function.update_of_ne (by simpa using same) _ _) fun x _ => Function.update_of_ne (by simp) _ _
  · obtain ⟨member, differ⟩ := ok.of_rest here inside
    rw [Server.store_head_items, σ.modify_other _ differ]
    exact ok.linked b' x member
  · exact ok.apart b₁ b₂ x (ok.of_rest here one).1 (ok.of_rest here two).1
  · rw [Server.store_link, Function.update_self, next]
  · rw [Server.store_head_items, σ.modify_self]
    exact slabbed

/-- The object goes back to the slab, unless it is the last one. -/
theorem Buckets.removeFree (nobjs : Nat) (ok : Buckets σ chain) (absent : ∀ b, a ∉ chain b) (busy : a ∉ σ.freelist)
    (slabbed : (σ.items a).slabbed = false) :
    (doItemRemoveFree nobjs σ a = none ∧ σ.freelist.length + 1 = nobjs) ∨
      ∃ σ', doItemRemoveFree nobjs σ a = some σ' ∧ Buckets σ' chain ∧ σ'.heads = σ.heads := by
  by_cases last : σ.freelist.length + 1 = nobjs
  · exact Or.inl ⟨by rw [doItemRemoveFree_eq nobjs busy slabbed, if_pos last], last⟩
  · have links : (σ.modify a fun it => { it with slabsClsid := 0 }).link = σ.link := σ.modify_link_same rfl
    refine Or.inr ⟨{ (σ.modify a fun it => { it with slabsClsid := 0 }) with freelist := a :: σ.freelist },
      by rw [doItemRemoveFree_eq nobjs busy slabbed, if_neg last], ⟨fun b => ?_, fun b x inside => ?_, ok.apart⟩, rfl⟩
    · change Path (σ.modify a fun it => { it with slabsClsid := 0 }).link (.head b) (chain b)
      rw [links]
      exact ok.path b
    · have differ : x ≠ a := by
        rintro rfl
        exact absent b inside
      obtain ⟨linked, unslabbed, free⟩ := ok.linked b x inside
      change ((σ.modify a fun it => { it with slabsClsid := 0 }).items x).linked = true ∧
        ((σ.modify a fun it => { it with slabsClsid := 0 }).items x).slabbed = false ∧ x ∉ a :: σ.freelist
      rw [σ.modify_other _ differ]
      exact ⟨linked, unslabbed, by simp [differ, free]⟩

/-! ## `mc_evict` unlinks -/

/-- What an eviction may leave: fewer items in the buckets, the run at its end or the slab about to be given back. -/
structure Evicted (nobjs : Nat) (chain : Nat → List Addr) (after : Server × Bool) (chain' : Nat → List Addr) : Prop where
  ok : Buckets after.1 chain'
  fewer : ∀ b, chain' b ⊆ chain b
  short : ∀ b, (chain' b).length ≤ (chain b).length
  ended : after.2 = true ∨ after.1.freelist.length + 1 = nobjs

/-- **The items of one bucket are unlinked**, the first one of them at least. -/
theorem Buckets.evictChain (n : Nat) (ok : Buckets σ chain) (bound : b < hashsize) (some_fuel : 0 < fuel) (enough : (chain b).length < n) :
    ∃ chain', Evicted nobjs chain (evictChain nobjs fuel b n σ (σ.heads b)) chain' ∧
      ((McServer.evictChain nobjs fuel b n σ (σ.heads b)).2 = true → chain' b = []) ∧ ∀ a rest, chain b = a :: rest → ∀ b', a ∉ chain' b' := by
  induction n generalizing σ chain with
  | zero => omega
  | succ n ih =>
    have head : σ.heads b = (chain b).head? := (ok.path b).link_eq
    cases here : chain b with
    | nil =>
      rw [head, here]
      exact ⟨chain, ⟨ok, fun b x => id, fun b => Nat.le_refl _, Or.inl rfl⟩, fun _ => here, fun a rest first => by cases first⟩
    | cons a rest =>
      obtain ⟨σ₁, unlinked, ok₁, head₁, freelist, slabbed⟩ := ok.unlinkTable bound here some_fuel
      have absent : ∀ b', a ∉ Function.update chain b rest b' := fun b' inside => (ok.of_rest here inside).2 rfl
      have fewer : ∀ b', Function.update chain b rest b' ⊆ chain b' := fun b' x inside => (ok.of_rest here inside).1
      have busy : a ∉ σ₁.freelist := by
        rw [freelist]
        exact (ok.linked b a (by simp [here])).2.2
      have shorter : ∀ b', (Function.update chain b rest b').length ≤ (chain b').length := by
        intro b'
        by_cases same : b' = b
        · subst same
          rw [Function.update_self, here, List.length_cons]
          exact Nat.le_succ _
        · rw [Function.update_of_ne same]
      have next : (σ.items a).hNext = rest.head? := by
        have path := ok.path b
        rw [here] at path
        exact path.2.link_eq
      rw [head, here, List.head?_cons, McServer.evictChain, unlinked]
      rcases ok₁.removeFree nobjs absent busy slabbed with ⟨kept, last⟩ | ⟨σ₂, freed, ok₂, heads⟩
      · simp only [kept]
        exact ⟨_, ⟨ok₁, fewer, shorter, Or.inr last⟩, nofun, fun x xs first b' => by cases first; exact absent b'⟩
      · have start : (σ.items a).hNext = σ₂.heads b := by
          rw [heads, next]
          exact head₁.symm
        simp only [freed, start]
        have counted : Buckets { σ₂ with evict := σ₂.evict + 1 } (Function.update chain b rest) := ⟨ok₂.path, ok₂.linked, ok₂.apart⟩
        obtain ⟨chain', evicted, emptied, _⟩ := ih counted (by rw [Function.update_self]; rw [here, List.length_cons] at enough; omega)
        refine ⟨chain', ⟨evicted.ok, fun b' x inside => fewer b' (evicted.fewer b' inside),
          fun b' => Nat.le_trans (evicted.short b') (shorter b'), evicted.ended⟩, emptied, fun x xs first b' inside => ?_⟩
        cases first
        exact absent b' (evicted.fewer b' inside)

/-- **The items of `n` buckets are unlinked.** -/
theorem Buckets.evictBuckets (n : Nat) (ok : Buckets σ chain) (bound : b < hashsize) (enough : ∀ b, (chain b).length < fuel) :
    ∃ chain', Evicted nobjs chain (evictBuckets nobjs fuel n σ b) chain' ∧ (0 < n → ∀ a rest, chain b = a :: rest → ∀ b', a ∉ chain' b') := by
  induction n generalizing σ chain b with
  | zero => exact ⟨chain, ⟨ok, fun b x => id, fun b => Nat.le_refl _, Or.inl rfl⟩, nofun⟩
  | succ n ih =>
    obtain ⟨chain₁, evicted, _, first⟩ := ok.evictChain fuel bound (Nat.lt_of_le_of_lt (Nat.zero_le _) (enough b)) (enough b)
    rw [McServer.evictBuckets]
    cases result : McServer.evictChain nobjs fuel b fuel σ (σ.heads b) with
    | mk σ₁ ended =>
      rw [result] at evicted
      cases ended with
      | false => exact ⟨chain₁, evicted, fun _ => first⟩
      | true =>
        have next : (b + 1) % hashsize < hashsize := Nat.mod_lt _ (by rw [hashsize_eq]; decide)
        obtain ⟨chain', more, _⟩ := ih evicted.ok next fun b' => Nat.lt_of_le_of_lt (evicted.short b') (enough b')
        refine ⟨chain', ⟨more.ok, fun b' x inside => evicted.fewer b' (more.fewer b' inside),
          fun b' => Nat.le_trans (more.short b') (evicted.short b'), more.ended⟩, fun _ a rest here b' inside => ?_⟩
        exact first a rest here b' (more.fewer b' inside)

/-- **Where a bucket other than 0 has an item, `assoc_evict` returns one that has, and `mc_evict` unlinks an item of it.** It
runs to its end, or up to the slab that nobody uses any more. -/
theorem assoc_evict_victim (σ : Server) (chain : Nat → List Addr) (ok : Buckets σ chain) (hv : Nat) (b : Nat) (positive : 0 < b)
    (bound : b < hashsize) (item : chain b ≠ []) (nobjs fuel : Nat) (rounds : hashsize ≤ fuel) (enough : ∀ b, (chain b).length < fuel) :
    ∃ i, assocEvict fuel σ hv = some i ∧ i < hashsize ∧ chain i ≠ [] ∧
      ∃ chain', Evicted nobjs chain (mcEvict2pc nobjs fuel σ i) chain' ∧ ∃ a ∈ chain i, ∀ b', a ∉ chain' b' := by
  have some_head : ∀ b', (σ.heads b').isSome = true ↔ chain b' ≠ [] := by
    intro b'
    rw [show σ.heads b' = (chain b').head? from (ok.path b').link_eq]
    simp
  obtain ⟨i, found, above, below, head⟩ := assocEvict_finds positive bound ((some_head b).mpr item) rounds
  have full := (some_head i).mp head
  obtain ⟨a, rest, here⟩ := List.exists_cons_of_ne_nil full
  obtain ⟨chain', evicted, out⟩ := ok.evictBuckets evictNum2pc below enough
  refine ⟨i, found, below, full, chain', ?_, a, by simp [here], out (by decide) a rest here⟩
  rw [mcEvict2pc, if_neg (Nat.ne_of_gt above)]
  exact evicted

end

/-- A server with one item, in the bucket `b`. -/
def oneItem (b : Nat) : Server :=
  ⟨fun b' => if b' = b then some 0 else none, fun _ => { Item.zero with linked := true }, [], true, false, 0⟩

theorem oneItem_buckets (b : Nat) : Buckets (oneItem b) fun b' => if b' = b then [0] else [] := by
  refine ⟨fun b' => ?_, fun b' a inside => ⟨rfl, rfl, by simp [oneItem]⟩, fun b₁ b₂ a one two => ?_⟩
  · by_cases same : b' = b
    · simp [same, BiProject.Lib.Chains.Path, oneItem, Server.link, Item.zero]
    · simp [same, BiProject.Lib.Chains.Path, oneItem, Server.link]
  · by_cases first : b₁ = b
    · by_cases second : b₂ = b
      · rw [first, second]
      · simp [second] at two
    · simp [first] at one

/-- With an item in bucket 0 alone, `assoc_evict` does not end for the hash value 0, and returns 1, which is empty, for the
hash value 1. -/
theorem assoc_evict_no_victim :
    (oneItem 0).heads 0 = some 0 ∧ (∀ fuel, assocEvict fuel (oneItem 0) 0 = none) ∧
      assocEvict hashsize (oneItem 0) 1 = some 1 ∧ (oneItem 0).heads 1 = none := by
  have empty : ∀ b, 0 < b → b < hashsize → (oneItem 0).heads b = none := by
    intro b positive _
    exact if_neg (Nat.ne_of_gt positive)
  refine ⟨rfl, fun fuel => assocEvict_none empty (Or.inl rfl), assocEvict_own empty Nat.zero_lt_one ?_ (Nat.le_refl _), rfl⟩
  rw [hashsize_eq]
  decide

theorem assoc_evict_victim_three :
    ∃ i, assocEvict hashsize (oneItem 3) 4294967295 = some i ∧ i < hashsize ∧ (if i = 3 then [0] else []) ≠ ([] : List Addr) ∧
      ∃ chain', Evicted 2 (fun b => if b = 3 then [0] else []) (mcEvict2pc 2 hashsize (oneItem 3) i) chain' ∧
        ∃ a ∈ (if i = 3 then [0] else []), ∀ b, a ∉ chain' b := by
  refine assoc_evict_victim (oneItem 3) _ (oneItem_buckets 3) 4294967295 3 (by decide) ?_ (by simp) 2 hashsize (Nat.le_refl _) fun b => ?_
  · rw [hashsize_eq]
    decide
  · rw [hashsize_eq]
    by_cases same : b = 3
    · simp [same]
    · simp [same]

end BiProject.McServer
