import BiProject.AtomicObj.Blocks

/-!
# Reads without a lock are atomic

A writer frees what it keeps only after a grace period, and what a reader copies was kept after the reader's section began or is
waited for. So a block does not change while it is copied.
-/

namespace BiProject.AtomicObj
set_option autoImplicit false
open BiProject.Lib.Regions

/-! ## How a core goes on -/

/-- What a step of a core can be. -/
inductive Goes (C : Config) (σ : Sys) (t : Nat) (byte : UInt8) : Sys → Prop where
  | enter {id since : Nat} (at_ : σ.pc t = .rdLock id since) : Goes C σ t byte (σ.goto t (.rdCopy id since (σ.data id) []))
  | copy {id since src : Nat} {got : List UInt8} (at_ : σ.pc t = .rdCopy id since src got) (more : got.length < C.sz) :
      Goes C σ t byte (σ.goto t (.rdCopy id since src (got ++ [σ.mem (src + got.length)])))
  | leave {id since src : Nat} {got : List UInt8} (at_ : σ.pc t = .rdCopy id since src got) (all : C.sz ≤ got.length) :
      Goes C σ t byte { σ with
        pc := Function.update (fun u => (σ.pc u).left t) t .idle
        reads := σ.reads ++ [⟨id, since, (σ.values id).length - 1, got⟩] }
  | lock {id new : Nat} (at_ : σ.pc t = .wrLock id new) (free : σ.lock id = none) :
      Goes C σ t byte { σ.goto t (.wrLoad id new) with lock := Function.update σ.lock id (some t) }
  | load {id new : Nat} (at_ : σ.pc t = .wrLoad id new) : Goes C σ t byte (σ.goto t (.wrCopy id new (σ.data id) 0))
  | fill {id new old k : Nat} (at_ : σ.pc t = .wrCopy id new old k) (more : k < C.sz) :
      Goes C σ t byte { σ.goto t (.wrCopy id new old (k + 1)) with mem := Function.update σ.mem (new + k) byte }
  | publish {id new old k : Nat} (at_ : σ.pc t = .wrCopy id new old k) (all : C.sz ≤ k) :
      Goes C σ t byte { σ.goto t (.wrUnlock id old) with
        data := Function.update σ.data id new
        values := Function.update σ.values id (σ.values id ++ [σ.bytes C new]) }
  | unlock {id old : Nat} (at_ : σ.pc t = .wrUnlock id old) :
      Goes C σ t byte { σ.goto t (.rcuFree old) with lock := Function.update σ.lock id none }
  | wait {old : Nat} (at_ : σ.pc t = .rcuFree old) (full : (σ.buf t).length = rcuFreeBufSz) :
      Goes C σ t byte (σ.goto t (.sync old fun u => (σ.pc u).inSection))
  | keep {old : Nat} (at_ : σ.pc t = .rcuFree old) (room : (σ.buf t).length ≠ rcuFreeBufSz) :
      Goes C σ t byte { σ.goto t .idle with buf := Function.update σ.buf t (σ.buf t ++ [old]) }
  | grace {old : Nat} {waits : Nat → Bool} (at_ : σ.pc t = .sync old waits) (ended : ∀ u < C.cores, waits u = false) :
      Goes C σ t byte (σ.goto t (.freeing old 0))
  | free {old i : Nat} (at_ : σ.pc t = .freeing old i) (more : i < rcuFreeBufSz) :
      Goes C σ t byte { σ.goto t (.freeing old (i + 1)) with live := Function.update σ.live ((σ.buf t).getD i 0) false }
  | freed {old i : Nat} (at_ : σ.pc t = .freeing old i) (all : rcuFreeBufSz ≤ i) :
      Goes C σ t byte { σ.goto t .idle with buf := Function.update σ.buf t [old] }

/-- Whatever a core does is one of these. -/
theorem Sys.go_cases {C : Config} {σ σ' : Sys} {t : Nat} {byte : UInt8} (run : σ.go C t byte = some σ') : Goes C σ t byte σ' := by
  unfold go at run
  split at run
  case h_1 => cases run
  case h_2 at_ =>
    cases run
    exact .enter at_
  case h_3 at_ =>
    split at run <;> cases run
    · exact .copy at_ ‹_›
    · exact .leave at_ (by omega)
  case h_4 at_ =>
    split at run <;> cases run
    exact .lock at_ ‹_›
  case h_5 at_ =>
    cases run
    exact .load at_
  case h_6 at_ =>
    split at run <;> cases run
    · exact .fill at_ ‹_›
    · exact .publish at_ (by omega)
  case h_7 at_ =>
    cases run
    exact .unlock at_
  case h_8 at_ =>
    split at run <;> cases run
    · exact .wait at_ ‹_›
    · exact .keep at_ ‹_›
  case h_9 at_ =>
    split at run <;> cases run
    rename_i ended
    simp only [List.all_eq_true, List.mem_range, Bool.not_eq_true'] at ended
    exact .grace at_ ended
  case h_10 at_ =>
    split at run <;> cases run
    · exact .free at_ ‹_›
    · exact .freed at_ (by omega)

/-! ## What holds in a run -/

/-- The object whose lock a writer has. -/
def Pc.holds : Pc → Option Nat
  | .wrLoad id _ | .wrCopy id _ _ _ | .wrUnlock id _ => some id
  | _ => none

/-- The object that is read, or written before the new block is in place. -/
def Pc.object : Pc → Option Nat
  | .rdLock id _ | .rdCopy id _ _ _ | .wrLock id _ | .wrLoad id _ | .wrCopy id _ _ _ => some id
  | _ => none

/-- `local_buf` is full. -/
def Pc.full : Pc → Bool
  | .sync _ _ | .freeing _ _ => true
  | _ => false

/-- Blocks that are kept here are not freed before the reader has left its section. -/
def Pc.spares (r : Nat) : Pc → Prop
  | .freeing _ _ => False
  | .sync _ waits => waits r = true
  | _ => True

/-- A reader copies a value that the object had since its section began, from a block that stays. -/
structure Reading (C : Config) (σ : Sys) (r id since src : Nat) (got : List UInt8) : Prop where
  value : ∃ k, since ≤ k ∧ (σ.values id)[k]? = some (σ.bytes C src)
  part : got = (σ.bytes C src).take got.length
  shown : ∃ κ, src ∈ σ.shown C κ
  spared : ∀ u, src ∈ σ.kept u → (σ.pc u).spares r

/-- **The invariant**: the books, what readers have seen, the locks, the buffers and who is waited for. -/
structure Inv (C : Config) (σ : Sys) : Prop where
  books : Books C σ
  cores : ∀ t, σ.pc t ≠ .idle → t < C.cores
  locks : ∀ t id, (σ.pc t).holds = some id → σ.lock id = some t
  objects : ∀ t id, (σ.pc t).object = some id → id < C.num
  loaded : ∀ t id new old k, σ.pc t = .wrCopy id new old k → old = σ.data id
  room : ∀ t, (σ.buf t).length ≤ rcuFreeBufSz
  full : ∀ t, (σ.pc t).full = true → (σ.buf t).length = rcuFreeBufSz
  current : ∀ id < C.num, (σ.values id).getLast? = some (σ.bytes C (σ.data id))
  entered : ∀ t id since, σ.pc t = .rdLock id since → since < (σ.values id).length
  reading : ∀ r id since src got, σ.pc r = .rdCopy id since src got → Reading C σ r id since src got
  done : ∀ read ∈ σ.reads, ∃ k, read.since ≤ k ∧ k ≤ read.upto ∧ (σ.values read.id)[k]? = some read.got

section
variable {C : Config} {σ σ' : Sys} {t : Nat} {byte : UInt8} {κ : Owner}

@[simp] theorem Pc.left_new (r : Nat) (pc : Pc) : (pc.left r).new = pc.new := by cases pc <;> rfl

@[simp] theorem Pc.left_old (r : Nat) (pc : Pc) : (pc.left r).old = pc.old := by cases pc <;> rfl

@[simp] theorem Pc.left_rest (r : Nat) (pc : Pc) (buf : List Nat) : (pc.left r).rest buf = pc.rest buf := by cases pc <;> rfl

@[simp] theorem Pc.left_holds (r : Nat) (pc : Pc) : (pc.left r).holds = pc.holds := by cases pc <;> rfl

@[simp] theorem Pc.left_object (r : Nat) (pc : Pc) : (pc.left r).object = pc.object := by cases pc <;> rfl

@[simp] theorem Pc.left_full (r : Nat) (pc : Pc) : (pc.left r).full = pc.full := by cases pc <;> rfl

/-- Who is not waited for is not waited for when another reader has left. -/
theorem Pc.left_spares {r r' : Nat} (other : r' ≠ r) {pc : Pc} (spares : pc.spares r') : (pc.left r).spares r' := by
  cases pc <;> simp_all [left, Pc.spares]

/-- Where a core is by its own steps, and with what in `local_buf`, is how it was. -/
structure Elsewhere (t : Nat) (σ σ' : Sys) : Prop where
  pc : ∀ u, u ≠ t → σ'.pc u = σ.pc u ∨ σ'.pc u = (σ.pc u).left t
  buf : ∀ u, u ≠ t → σ'.buf u = σ.buf u

/-- A step of a core leaves the other cores where they are. -/
theorem Goes.elsewhere (goes : Goes C σ t byte σ') : Elsewhere t σ σ' := by
  cases goes <;> constructor <;> intro u other <;> simp [Sys.goto, Function.update_of_ne other]

/-- What another core has kept stays, -/
theorem Elsewhere.kept (elsewhere : Elsewhere t σ σ') {u : Nat} (other : u ≠ t) : σ'.kept u = σ.kept u := by
  rcases elsewhere.pc u other with pc | pc <;> simp [Sys.kept, pc, elsewhere.buf u other]

/-- and so do the blocks it has. -/
theorem Elsewhere.own (elsewhere : Elsewhere t σ σ') {u : Nat} (other : u ≠ t) : σ'.own C (.core u) = σ.own C (.core u) := by
  rcases elsewhere.pc u other with pc | pc <;> simp [Sys.own, Sys.shown, pc, elsewhere.kept other]

/-- The books are right after a step that moves no block in or out of the core's own. -/
theorem Books.at (books : Books C σ) (elsewhere : Elsewhere t σ σ') (data : σ'.data = σ.data) (live : σ'.live = σ.live)
    (here : (σ'.own C (.core t)).Perm (σ.own C (.core t))) : Books C σ' := by
  apply books.perm _ live
  intro κ
  cases κ with
  | obj id => simp [Sys.own, Sys.shown, data]
  | core u =>
    by_cases same : u = t
    · exact same ▸ here
    · rw [elsewhere.own same]

/-- A writer puts its block in place, and keeps the old one. -/
theorem Books.publish (books : Books C σ) {id new old k : Nat} (at_ : σ.pc t = .wrCopy id new old k) (object : id < C.num)
    (loaded : old = σ.data id) (elsewhere : Elsewhere t σ σ') (pc : σ'.pc t = .wrUnlock id old) (buf : σ'.buf t = σ.buf t)
    (data : σ'.data = Function.update σ.data id new) (live : σ'.live = σ.live) : Books C σ' := by
  have objBefore : σ.own C (.obj id) = [old] := by simp [Sys.own, Sys.shown, object, loaded]
  have objAfter : σ'.own C (.obj id) = [new] := by simp [Sys.own, Sys.shown, object, data]
  have coreBefore : σ.own C (.core t) = new :: σ.buf t := by simp [Sys.own, Sys.shown, Sys.kept, at_, Pc.new, Pc.old, Pc.rest]
  have coreAfter : σ'.own C (.core t) = old :: σ.buf t := by simp [Sys.own, Sys.shown, Sys.kept, pc, buf, Pc.new, Pc.old, Pc.rest]
  have rest : ∀ j, j ≠ .obj id → j ≠ .core t → σ'.own C j = σ.own C j := by
    intro j notObj notCore
    cases j with
    | obj id' =>
      have other : id' ≠ id := fun same => notObj (same ▸ rfl)
      simp [Sys.own, Sys.shown, data, Function.update_of_ne other]
    | core u => exact elsewhere.own fun same => notCore (same ▸ rfl)
  have differ : Owner.obj id ≠ .core t := by simp
  apply books.move differ rest _ live
  rw [objBefore, objAfter, coreBefore, coreAfter]
  exact List.Perm.swap old new (σ.buf t)

/-- A step of a core keeps the books. -/
theorem Inv.books_go (inv : Inv C σ) (goes : Goes C σ t byte σ') : Books C σ' := by
  have elsewhere := goes.elsewhere
  cases goes with
  | publish at_ all =>
    apply inv.books.publish at_ _ (inv.loaded t _ _ _ _ at_) elsewhere
    · simp [Sys.goto]
    · rfl
    · rfl
    · rfl
    · exact inv.objects t _ (by simp [at_, Pc.object])
  | free at_ more =>
    have full := inv.full t (by simp [at_, Pc.full])
    rename_i old i
    have inside : i < (σ.buf t).length := full ▸ more
    apply inv.books.give (κ := .core t) _ _ rfl
    · intro j other
      cases j with
      | obj id => rfl
      | core u => exact elsewhere.own fun same => other (same ▸ rfl)
    · simp only [Sys.own, Sys.shown, Sys.kept, Sys.goto, at_, Function.update_self, Pc.new, Pc.old, Pc.rest, List.nil_append, List.singleton_append]
      simp only [List.drop_eq_getElem_cons inside, List.getD_eq_getElem?_getD, List.getElem?_eq_getElem inside, Option.getD_some]
      exact List.Perm.swap _ _ _
  | keep at_ room =>
    apply inv.books.at elsewhere rfl rfl
    simp only [Sys.own, Sys.shown, Sys.kept, Sys.goto, at_, Function.update_self, Pc.new, Pc.old, Pc.rest, List.nil_append]
    exact List.perm_append_comm
  | freed at_ all =>
    have full := inv.full t (by simp [at_, Pc.full])
    apply inv.books.at elsewhere rfl rfl
    simp [Sys.own, Sys.shown, Sys.kept, Sys.goto, at_, Pc.new, Pc.old, Pc.rest, full, all]
  | _ at_ =>
    apply inv.books.at elsewhere rfl rfl
    simp [Sys.own, Sys.shown, Sys.kept, Sys.goto, at_, Pc.new, Pc.old, Pc.rest]

/-! ## What a reader copies -/

section
variable {r id since src a : Nat} {got : List UInt8}

/-- A block that a reader may have seen is not written to. -/
theorem Inv.bytes_go (inv : Inv C σ) (goes : Goes C σ t byte σ') (shown : a ∈ σ.shown C κ) : σ'.bytes C a = σ.bytes C a := by
  cases goes with
  | fill at_ more =>
    rename_i id new old k
    have apart := inv.books.new_apart (t := t) (by simp [at_, Pc.new] : new ∈ (σ.pc t).new) shown
    apply List.map_congr_left
    intro j inside
    have := List.mem_range.mp inside
    have other : a + j ≠ new + k := by
      unfold Region.Apart Config.block at apart
      simp only at apart
      omega
    exact Function.update_of_ne other _ _
  | _ => rfl

/-- Values are only added to an object's history, -/
theorem Goes.values (goes : Goes C σ t byte σ') (id : Nat) : ∃ more, σ'.values id = σ.values id ++ more := by
  cases goes with
  | publish at_ all =>
    rename_i id' new old k
    by_cases same : id = id'
    · subst same
      exact ⟨[σ.bytes C new], by simp⟩
    · exact ⟨[], by simp [Function.update_of_ne same]⟩
  | _ => exact ⟨[], by simp [Sys.goto]⟩

/-- so that one that is there stays where it is. -/
theorem Goes.value_stays (goes : Goes C σ t byte σ') {k : Nat} {value : List UInt8} (at_ : (σ.values id)[k]? = some value) :
    (σ'.values id)[k]? = some value := by
  obtain ⟨more, values⟩ := goes.values id
  rw [values, List.getElem?_append_left (List.getElem?_eq_some_iff.mp at_).1]
  exact at_

/-- A block that a core has put out of place goes from its hands to `local_buf`, and leaves it only when it is freed. -/
theorem Inv.shown_core (inv : Inv C σ) (goes : Goes C σ t byte σ') (reading : Reading C σ r id since src got)
    (shown : src ∈ σ.shown C (.core t)) : src ∈ σ'.shown C (.core t) := by
  cases goes with
  | free at_ more =>
    rename_i old i
    have full := inv.full t (by simp [at_, Pc.full])
    have inside : i < (σ.buf t).length := full ▸ more
    simp only [Sys.shown, Sys.kept, at_, Pc.old, Pc.rest, List.singleton_append, List.mem_cons] at shown
    simp only [Sys.shown, Sys.kept, Sys.goto, Function.update_self, Pc.old, Pc.rest, List.singleton_append, List.mem_cons]
    apply shown.imp_right
    intro kept
    have spares := reading.spared t (by simpa only [Sys.kept, at_, Pc.rest] using kept)
    simp [at_, Pc.spares] at spares
  | keep at_ room =>
    simp only [Sys.shown, Sys.kept, at_, Pc.old, Pc.rest] at shown
    simp only [Sys.shown, Sys.kept, Sys.goto, Function.update_self, Pc.old, Pc.rest, List.nil_append]
    exact List.perm_append_comm.subset shown
  | freed at_ all =>
    rename_i old i
    have full := inv.full t (by simp [at_, Pc.full])
    have none : (σ.buf t).drop i = [] := by
      apply List.drop_of_length_le
      omega
    simp only [Sys.shown, Sys.kept, at_, Pc.old, Pc.rest, none, List.append_nil] at shown
    simpa only [Sys.shown, Sys.kept, Sys.goto, Function.update_self, Pc.old, Pc.rest, List.nil_append] using shown
  | publish at_ all =>
    simp only [Sys.shown, Sys.kept, at_, Pc.old, Pc.rest, List.nil_append] at shown
    simp [Sys.shown, Sys.kept, Sys.goto, Pc.old, Pc.rest, shown]
  | _ at_ =>
    simp only [Sys.shown, Sys.kept, at_, Pc.old, Pc.rest] at shown
    simpa [Sys.shown, Sys.kept, Sys.goto, Pc.old, Pc.rest] using shown

/-- The block that a reader copies is still there after a step. -/
theorem Inv.shown_go (inv : Inv C σ) (goes : Goes C σ t byte σ') (reading : Reading C σ r id since src got) : ∃ κ, src ∈ σ'.shown C κ := by
  obtain ⟨κ, shown⟩ := reading.shown
  have elsewhere := goes.elsewhere
  cases κ with
  | core u =>
    by_cases same : u = t
    · subst same
      exact ⟨_, inv.shown_core goes reading shown⟩
    · refine ⟨.core u, ?_⟩
      rcases elsewhere.pc u same with pc | pc <;> simpa [Sys.shown, pc, elsewhere.kept same] using shown
  | obj o =>
    cases goes with
    | publish at_ all =>
      rename_i id' new old k
      by_cases same : o = id'
      · subst same
        have loaded := inv.loaded t _ _ _ _ at_
        have object := inv.objects t o (by simp [at_, Pc.object])
        simp only [Sys.shown, object, if_true, List.mem_singleton] at shown
        exact ⟨.core t, by simp [Sys.shown, Sys.goto, Pc.old, loaded, shown]⟩
      · refine ⟨.obj o, ?_⟩
        simpa only [Sys.shown, Sys.goto, Function.update_of_ne same] using shown
    | _ => exact ⟨.obj o, shown⟩

/-- What is kept at the core that makes the step is spared. -/
theorem Inv.spared_here (inv : Inv C σ) (goes : Goes C σ t byte σ') (reading : Reading C σ r id since src got) (inside : (σ.pc r).inSection = true)
    (kept : src ∈ σ'.kept t) : (σ'.pc t).spares r := by
  cases goes with
  | wait at_ full => simp [Sys.goto, Pc.spares, inside]
  | grace at_ ended =>
    have spares := reading.spared t (by simpa [Sys.kept, Sys.goto, Pc.rest, at_] using kept)
    have core := inv.cores r (by rintro idle; simp [idle, Pc.inSection] at inside)
    simp only [at_, Pc.spares, ended r core, Bool.false_eq_true] at spares
  | free at_ more =>
    have all : src ∈ σ.kept t := by
      simp only [Sys.kept, Sys.goto, Function.update_self, Pc.rest] at kept
      simp only [Sys.kept, at_, Pc.rest]
      exact List.mem_of_mem_drop (by rwa [List.drop_drop])
    have spares := reading.spared t all
    simp [at_, Pc.spares] at spares
  | _ at_ => simp [Sys.goto, Pc.spares]

/-- What a reader's block has is a value not older than when it entered, and stays so. -/
theorem Inv.value_go (inv : Inv C σ) (goes : Goes C σ t byte σ') (reading : Reading C σ r id since src got) :
    ∃ k, since ≤ k ∧ (σ'.values id)[k]? = some (σ'.bytes C src) := by
  obtain ⟨k, after, value⟩ := reading.value
  obtain ⟨κ, shown⟩ := reading.shown
  rw [inv.bytes_go goes shown]
  exact ⟨k, after, goes.value_stays value⟩

/-- Another core's step. -/
theorem Inv.reading_other (inv : Inv C σ) (goes : Goes C σ t byte σ') (at_ : σ.pc r = .rdCopy id since src got) (other : r ≠ t) :
    Reading C σ' r id since src got := by
  have reading := inv.reading r id since src got at_
  have elsewhere := goes.elsewhere
  obtain ⟨κ, shown⟩ := reading.shown
  constructor
  · exact inv.value_go goes reading
  · rw [inv.bytes_go goes shown]
    exact reading.part
  · exact inv.shown_go goes reading
  · intro u kept
    by_cases here : u = t
    · subst here
      exact inv.spared_here goes reading (by simp [at_, Pc.inSection]) kept
    · have spares := reading.spared u (elsewhere.kept here ▸ kept)
      rcases elsewhere.pc u here with pc | pc <;> rw [pc]
      · exact spares
      · exact Pc.left_spares other spares

/-- The reader's own step. -/
theorem Inv.reading_copy (inv : Inv C σ) (at_ : σ.pc t = .rdCopy id since src got) (more : got.length < C.sz) :
    Reading C (σ.goto t (.rdCopy id since src (got ++ [σ.mem (src + got.length)]))) t id since src (got ++ [σ.mem (src + got.length)]) := by
  have reading := inv.reading t id since src got at_
  have goes : Goes C σ t 0 _ := .copy at_ more
  constructor
  · exact inv.value_go goes reading
  · have next : (σ.bytes C src)[got.length]? = some (σ.mem (src + got.length)) := by simp [Sys.bytes, more]
    change _ = (σ.bytes C src).take _
    rw [List.length_append, List.length_singleton, List.take_add_one, ← reading.part, next]
    rfl
  · exact inv.shown_go goes reading
  · intro u kept
    by_cases here : u = t
    · subst here
      simp [Sys.goto, Pc.spares]
    · rw [goes.elsewhere.kept here] at kept
      simpa only [Sys.goto, Function.update_of_ne here] using reading.spared u kept

/-- A reader sees the current block, which nobody keeps. -/
theorem Inv.reading_enter (inv : Inv C σ) (at_ : σ.pc t = .rdLock id since) :
    Reading C (σ.goto t (.rdCopy id since (σ.data id) [])) t id since (σ.data id) [] := by
  have object := inv.objects t id (by simp [at_, Pc.object])
  have shown : σ.data id ∈ σ.shown C (.obj id) := by simp [Sys.shown, object]
  have goes : Goes C σ t 0 _ := .enter at_
  constructor
  · have entered := inv.entered t id since at_
    have current := inv.current id object
    rw [List.getLast?_eq_getElem?] at current
    exact ⟨(σ.values id).length - 1, by omega, current⟩
  · simp
  · exact ⟨.obj id, shown⟩
  · intro u kept
    have held : σ.data id ∈ σ.own C (.core u) := by
      apply Sys.own_of_shown
      apply List.mem_append_right
      by_cases here : u = t
      · subst here
        simpa [Sys.kept, Sys.goto, at_, Pc.rest] using kept
      · rwa [goes.elsewhere.kept here] at kept
    have same := inv.books.unique (Sys.own_of_shown shown) held
    cases same

/-- A reader that copies has the beginning of what its block has. -/
theorem Inv.reading_go (inv : Inv C σ) (goes : Goes C σ t byte σ') (at_ : σ'.pc r = .rdCopy id since src got) :
    Reading C σ' r id since src got := by
  by_cases other : r = t
  · subst other
    cases goes with
    | enter here =>
      simp only [Sys.goto, Function.update_self, Pc.rdCopy.injEq] at at_
      obtain ⟨rfl, rfl, rfl, rfl⟩ := at_
      exact inv.reading_enter here
    | copy here more =>
      simp only [Sys.goto, Function.update_self, Pc.rdCopy.injEq] at at_
      obtain ⟨rfl, rfl, rfl, rfl⟩ := at_
      exact inv.reading_copy here more
    | _ => simp [Sys.goto] at at_
  · apply inv.reading_other goes _ other
    rcases goes.elsewhere.pc r other with pc | pc <;> rw [pc] at at_
    · exact at_
    · cases was : σ.pc r <;> simp_all [Pc.left]

end

/-! ## Every step keeps it -/

/-- The block of an object has its last value. -/
theorem Inv.current_go (inv : Inv C σ) (goes : Goes C σ t byte σ') {id : Nat} (object : id < C.num) :
    (σ'.values id).getLast? = some (σ'.bytes C (σ'.data id)) := by
  have shown : σ.data id ∈ σ.shown C (.obj id) := by simp [Sys.shown, object]
  have bytes := inv.bytes_go goes shown
  have current := inv.current id object
  cases goes with
  | publish at_ all =>
    rename_i id' new old k
    by_cases same : id = id'
    · subst same
      simp [Sys.goto, Sys.bytes]
    · simp only [Sys.goto, Function.update_of_ne same]
      exact current
  | _ =>
    rw [← bytes] at current
    exact current

/-- Each read that has ended saw one of the values of its time. -/
theorem Inv.done_go (inv : Inv C σ) (goes : Goes C σ t byte σ') :
    ∀ read ∈ σ'.reads, ∃ k, read.since ≤ k ∧ k ≤ read.upto ∧ (σ'.values read.id)[k]? = some read.got := by
  have before : ∀ read ∈ σ.reads, ∃ k, read.since ≤ k ∧ k ≤ read.upto ∧ (σ'.values read.id)[k]? = some read.got := by
    intro read member
    obtain ⟨k, after, upto, value⟩ := inv.done read member
    exact ⟨k, after, upto, goes.value_stays value⟩
  cases goes with
  | leave at_ all =>
    rename_i id since src got
    intro read member
    rcases List.mem_append.mp member with old | last
    · exact before read old
    · rw [List.mem_singleton.mp last]
      have reading := inv.reading t id since src got at_
      obtain ⟨k, after, value⟩ := reading.value
      have inside := (List.getElem?_eq_some_iff.mp value).1
      have whole : got = σ.bytes C src := by
        rw [reading.part]
        apply List.take_of_length_le
        simpa [Sys.bytes] using all
      refine ⟨k, after, ?_, ?_⟩
      · change k ≤ (σ.values id).length - 1
        omega
      · rw [whole]
        exact value
  | _ => exact before

/-- Another core holds the locks it held, -/
theorem Elsewhere.holds (elsewhere : Elsewhere t σ σ') {u : Nat} (other : u ≠ t) : (σ'.pc u).holds = (σ.pc u).holds := by
  rcases elsewhere.pc u other with pc | pc <;> simp [pc]

/-- is at the object it was at, -/
theorem Elsewhere.object (elsewhere : Elsewhere t σ σ') {u : Nat} (other : u ≠ t) : (σ'.pc u).object = (σ.pc u).object := by
  rcases elsewhere.pc u other with pc | pc <;> simp [pc]

/-- and is as far with its full buffer as it was. -/
theorem Elsewhere.full (elsewhere : Elsewhere t σ σ') {u : Nat} (other : u ≠ t) : (σ'.pc u).full = (σ.pc u).full := by
  rcases elsewhere.pc u other with pc | pc <;> simp [pc]

/-- A core that waits for no reader is where it was. -/
theorem Elsewhere.eq_of (elsewhere : Elsewhere t σ σ') {u : Nat} (other : u ≠ t) {pc : Pc} (at_ : σ'.pc u = pc) (awake : pc.full = false) :
    σ.pc u = pc := by
  rcases elsewhere.pc u other with same | left
  · exact same ▸ at_
  · rw [left] at at_
    cases was : σ.pc u <;> rw [was] at at_ <;> subst at_
    case sync => simp [Pc.left, Pc.full] at awake
    all_goals rfl

/-- A lock is held by whoever says so. -/
theorem Inv.locks_go (inv : Inv C σ) (goes : Goes C σ t byte σ') {u id : Nat} (holds : (σ'.pc u).holds = some id) : σ'.lock id = some u := by
  have elsewhere := goes.elsewhere
  by_cases here : u = t
  · subst here
    cases goes with
    | lock at_ free =>
      simp only [Sys.goto, Function.update_self, Pc.holds, Option.some.injEq] at holds
      simp [holds]
    | load at_ | fill at_ | publish at_ =>
      apply inv.locks u id
      simpa [Sys.goto, at_, Pc.holds] using holds
    | _ => simp [Sys.goto, Pc.holds] at holds
  · rw [elsewhere.holds here] at holds
    have held := inv.locks u id holds
    cases goes with
    | lock at_ free =>
      rename_i id' new
      have other : id ≠ id' := by
        rintro rfl
        rw [free] at held
        cases held
      simpa only [Sys.goto, Function.update_of_ne other] using held
    | unlock at_ =>
      rename_i id' old
      have other : id ≠ id' := by
        rintro rfl
        rw [inv.locks t id (by simp [at_, Pc.holds]), Option.some.injEq] at held
        exact here held.symm
      simpa only [Sys.goto, Function.update_of_ne other] using held
    | _ => exact held

/-- The objects that cores are at exist. -/
theorem Inv.objects_go (inv : Inv C σ) (goes : Goes C σ t byte σ') {u id : Nat} (object : (σ'.pc u).object = some id) : id < C.num := by
  have elsewhere := goes.elsewhere
  apply inv.objects u id
  by_cases here : u = t
  · subst here
    cases goes with
    | enter at_ | copy at_ | lock at_ | load at_ | fill at_ => simpa [Sys.goto, at_, Pc.object] using object
    | _ => simp [Sys.goto, Pc.object] at object
  · rwa [elsewhere.object here] at object

/-- Only who has the lock puts a block in place. -/
theorem Inv.loaded_go (inv : Inv C σ) (goes : Goes C σ t byte σ') {u id new old k : Nat} (at_ : σ'.pc u = .wrCopy id new old k) :
    old = σ'.data id := by
  have elsewhere := goes.elsewhere
  by_cases here : u = t
  · subst here
    cases goes with
    | load was =>
      simp only [Sys.goto, Function.update_self, Pc.wrCopy.injEq] at at_
      obtain ⟨rfl, rfl, rfl, rfl⟩ := at_
      rfl
    | fill was more =>
      simp only [Sys.goto, Function.update_self, Pc.wrCopy.injEq] at at_
      obtain ⟨rfl, rfl, rfl, rfl⟩ := at_
      exact inv.loaded u _ _ _ _ was
    | _ => simp [Sys.goto] at at_
  · have was := elsewhere.eq_of here at_ rfl
    have loaded := inv.loaded u _ _ _ _ was
    cases goes with
    | publish own all =>
      rename_i id' new' old' k'
      have other : id ≠ id' := by
        rintro rfl
        have held := inv.locks u id (by simp [was, Pc.holds])
        rw [inv.locks t id (by simp [own, Pc.holds]), Option.some.injEq] at held
        exact here held.symm
      simpa only [Sys.goto, Function.update_of_ne other] using loaded
    | _ => exact loaded

/-- No buffer overflows, -/
theorem Inv.room_go (inv : Inv C σ) (goes : Goes C σ t byte σ') (u : Nat) : (σ'.buf u).length ≤ rcuFreeBufSz := by
  have elsewhere := goes.elsewhere
  have room := inv.room u
  by_cases here : u = t
  · subst here
    cases goes with
    | keep at_ notFull =>
      simp only [Function.update_self, List.length_append, List.length_singleton]
      omega
    | freed at_ all => simp [rcuFreeBufSz]
    | _ => exact room
  · rwa [elsewhere.buf u here]

/-- and whoever waits has a full one. -/
theorem Inv.full_go (inv : Inv C σ) (goes : Goes C σ t byte σ') {u : Nat} (full : (σ'.pc u).full = true) : (σ'.buf u).length = rcuFreeBufSz := by
  have elsewhere := goes.elsewhere
  by_cases here : u = t
  · subst here
    cases goes with
    | wait at_ all => exact all
    | grace at_ | free at_ => exact inv.full u (by simp [at_, Pc.full])
    | _ => simp [Sys.goto, Pc.full] at full
  · rw [elsewhere.full here] at full
    rw [elsewhere.buf u here]
    exact inv.full u full

/-- A reader entered after the first value. -/
theorem Inv.entered_go (inv : Inv C σ) (goes : Goes C σ t byte σ') {u id since : Nat} (at_ : σ'.pc u = .rdLock id since) :
    since < (σ'.values id).length := by
  have elsewhere := goes.elsewhere
  by_cases here : u = t
  · subst here
    cases goes <;> simp [Sys.goto] at at_
  · have entered := inv.entered u id since (elsewhere.eq_of here at_ rfl)
    obtain ⟨more, values⟩ := goes.values id
    rw [values, List.length_append]
    omega

/-- A step of a core keeps the invariant. -/
theorem Inv.go (inv : Inv C σ) (core : t < C.cores) (goes : Goes C σ t byte σ') : Inv C σ' := by
  constructor
  case books => exact inv.books_go goes
  case locks => exact fun _ _ holds => inv.locks_go goes holds
  case objects => exact fun _ _ object => inv.objects_go goes object
  case loaded => exact fun _ _ _ _ _ at_ => inv.loaded_go goes at_
  case room => exact inv.room_go goes
  case full => exact fun _ full => inv.full_go goes full
  case current => exact fun _ object => inv.current_go goes object
  case entered => exact fun _ _ _ at_ => inv.entered_go goes at_
  case reading => exact fun _ _ _ _ _ at_ => inv.reading_go goes at_
  case done => exact inv.done_go goes
  case cores =>
    intro u busy
    by_cases here : u = t
    · exact here ▸ core
    · apply inv.cores u
      intro idle
      rcases goes.elsewhere.pc u here with pc | pc <;> simp [pc, idle, Pc.left] at busy

/-! ## A read or a write begins -/

/-- A core that is not emptying its buffer has all of it, -/
theorem Pc.rest_of_awake {pc : Pc} (awake : pc.full = false) (buf : List Nat) : pc.rest buf = buf := by
  cases pc <;> first | rfl | simp [Pc.full] at awake

/-- and waits for nobody. -/
theorem Pc.spares_of_awake {pc : Pc} (awake : pc.full = false) (r : Nat) : pc.spares r := by
  cases pc <;> trivial

/-- An idle core goes to the first step of a call. -/
theorem Inv.call (inv : Inv C σ) (core : t < C.cores) (idle : σ.pc t = .idle) {pc : Pc} {live : Nat → Bool}
    (books : Books C { σ.goto t pc with live := live }) (awake : pc.full = false) (object : ∀ id, pc.object = some id → id < C.num)
    (holds : pc.holds = none) (notCopy : ∀ id since src got, pc ≠ .rdCopy id since src got)
    (entered : ∀ id since, pc = .rdLock id since → since < (σ.values id).length) : Inv C { σ.goto t pc with live := live } := by
  have here : ({ σ.goto t pc with live := live } : Sys).pc t = pc := Function.update_self ..
  have there : ∀ u, u ≠ t → ({ σ.goto t pc with live := live } : Sys).pc u = σ.pc u := fun u other => Function.update_of_ne other ..
  have kept : ∀ u, ({ σ.goto t pc with live := live } : Sys).kept u = σ.kept u := by
    intro u
    by_cases same : u = t
    · subst same
      simp only [Sys.kept, Sys.goto, Function.update_self, idle, Pc.rest_of_awake awake]
      rfl
    · simp only [Sys.kept, Sys.goto, Function.update_of_ne same]
  constructor
  case books => exact books
  case room => exact inv.room
  case current => exact inv.current
  case done => exact inv.done
  case cores =>
    intro u busy
    by_cases same : u = t
    · exact same ▸ core
    · exact inv.cores u (there u same ▸ busy)
  case locks =>
    intro u id held
    by_cases same : u = t
    · subst same
      rw [here, holds] at held
      cases held
    · exact inv.locks u id (there u same ▸ held)
  case objects =>
    intro u id named
    by_cases same : u = t
    · subst same
      exact object id (here ▸ named)
    · exact inv.objects u id (there u same ▸ named)
  case loaded =>
    intro u id new old k at_
    by_cases same : u = t
    · subst same
      rw [here] at at_
      simp [at_, Pc.holds] at holds
    · exact inv.loaded u id new old k (there u same ▸ at_)
  case full =>
    intro u full
    by_cases same : u = t
    · subst same
      rw [here, awake] at full
      cases full
    · exact inv.full u (there u same ▸ full)
  case entered =>
    intro u id since at_
    by_cases same : u = t
    · subst same
      exact entered id since (here ▸ at_)
    · exact inv.entered u id since (there u same ▸ at_)
  case reading =>
    intro r id since src got at_
    by_cases same : r = t
    · subst same
      exact absurd (here ▸ at_) (notCopy id since src got)
    · have reading := inv.reading r id since src got (there r same ▸ at_)
      refine ⟨reading.value, reading.part, ?_, ?_⟩
      · obtain ⟨κ, shown⟩ := reading.shown
        refine ⟨κ, ?_⟩
        cases κ with
        | obj o => exact shown
        | core u =>
          simp only [Sys.shown, kept u, List.mem_append] at shown ⊢
          apply shown.imp_left
          intro old
          by_cases idler : u = t
          · subst idler
            simp [idle, Pc.old] at old
          · rwa [there u idler]
      · intro u held
        by_cases idler : u = t
        · subst idler
          rw [here]
          exact Pc.spares_of_awake awake r
        · rw [there u idler]
          exact reading.spared u (kept u ▸ held)

/-- Each step keeps the invariant, -/
theorem Inv.step (inv : Inv C σ) {a : Act} (step : Step C σ a σ') : Inv C σ' := by
  cases step with
  | @read t id core idle object =>
    have own : ∀ κ, (σ.goto t (.rdLock id ((σ.values id).length - 1))).own C κ = σ.own C κ := by
      rintro (o | u)
      · rfl
      · by_cases same : u = t
        · subst same
          simp [Sys.own, Sys.shown, Sys.kept, Sys.goto, idle, Pc.new, Pc.old, Pc.rest]
        · simp [Sys.own, Sys.shown, Sys.kept, Sys.goto, Function.update_of_ne same]
    have nonempty : 0 < (σ.values id).length := by
      apply List.length_pos_of_ne_nil
      intro none
      simpa [none] using inv.current id object
    have called : Inv C { σ.goto t (.rdLock id ((σ.values id).length - 1)) with live := σ.live } := by
      apply inv.call core idle (inv.books.perm (fun κ => own κ ▸ .refl _) rfl) rfl
      · simp [Pc.object, object]
      · rfl
      · simp
      · intro id' since at_
        simp only [Pc.rdLock.injEq] at at_
        obtain ⟨rfl, rfl⟩ := at_
        omega
    exact called
  | @write t id new core idle object apart =>
    have rest : ∀ j, j ≠ .core t →
        ({ σ.goto t (.wrLock id new) with live := Function.update σ.live new true } : Sys).own C j = σ.own C j := by
      rintro (o | u) other
      · rfl
      · have different : u ≠ t := fun same => other (same ▸ rfl)
        simp [Sys.own, Sys.shown, Sys.kept, Sys.goto, Function.update_of_ne different]
    have taken : ({ σ.goto t (.wrLock id new) with live := Function.update σ.live new true } : Sys).own C (.core t) = new :: σ.own C (.core t) := by
      simp [Sys.own, Sys.shown, Sys.kept, Sys.goto, idle, Pc.new, Pc.old, Pc.rest]
    apply inv.call core idle (inv.books.take rest taken apart rfl) rfl
    · simp [Pc.object, object]
    · rfl
    · simp
    · simp
  | go core run => exact inv.go core (Sys.go_cases run)

/-- it holds at the start, -/
theorem Inv.init (fresh : σ.Fresh C) : Inv C σ := by
  have core : ∀ t, σ.own C (.core t) = [] := by
    intro t
    simp [Sys.own, Sys.shown, Sys.kept, fresh.pc, fresh.buf, Pc.new, Pc.old, Pc.rest]
  have object : ∀ id a, a ∈ σ.own C (.obj id) ↔ id < C.num ∧ σ.data id = a := by
    intro id a
    simp only [Sys.own, Sys.shown]
    split
    case isTrue inside => simp [inside, eq_comm]
    case isFalse outside => simp [outside]
  constructor
  case books =>
    constructor
    · constructor
      · rintro (id | t)
        · simp only [Sys.own, Sys.shown]
          split <;> simp
        · simp [core]
      · rintro (id | t) (id' | t') differ r held s held'
        case obj.obj =>
          obtain ⟨a, member, rfl⟩ := List.mem_map.mp held
          obtain ⟨a', member', rfl⟩ := List.mem_map.mp held'
          obtain ⟨inside, rfl⟩ := (object id a).mp member
          obtain ⟨inside', rfl⟩ := (object id' a').mp member'
          exact fresh.apart id inside id' inside' fun same => differ (same ▸ rfl)
        all_goals simp [core] at held held'
    · intro a
      rw [fresh.live]
      constructor
      · rintro ⟨id, inside, rfl⟩
        exact ⟨.obj id, (object id _).mpr ⟨inside, rfl⟩⟩
      · rintro ⟨id | t, held⟩
        · exact ⟨id, (object id a).mp held⟩
        · simp [core] at held
  case cores => simp [fresh.pc]
  case locks => simp [fresh.pc, Pc.holds]
  case objects => simp [fresh.pc, Pc.object]
  case loaded => simp [fresh.pc]
  case room => simp [fresh.buf]
  case full => simp [fresh.pc, Pc.full]
  case current => simp [fresh.values]
  case entered => simp [fresh.pc]
  case reading => simp [fresh.pc]
  case done => simp [fresh.reads]

/-- and so throughout. -/
theorem Run.inv (run : Run C σ) : Inv C σ := by
  induction run with
  | init fresh => exact .init fresh
  | step before next ih => exact ih.step next

end

/-! ## A read of one core and a write of another -/

/-- Two cores and one object of one byte, -/
def Config.two : Config := ⟨1, 1, 2, by decide⟩

/-- before anything has happened. -/
def Sys.two : Sys where
  data _ := 0
  mem _ := 0
  live a := a == 0
  lock _ := none
  pc _ := .idle
  buf _ := []
  values _ := [[0]]
  reads := []

/-- It is a start. -/
theorem Sys.two_fresh : Sys.two.Fresh .two := by
  constructor
  case apart =>
    intro id inside id' inside' differ
    have := inside
    simp only [Config.two] at inside inside'
    omega
  case live =>
    intro a
    simp only [two, Config.two, beq_iff_eq]
    constructor
    · rintro rfl
      exact ⟨0, by decide, rfl⟩
    · rintro ⟨_, _, rfl⟩
      rfl
  all_goals intros; rfl

/-- The reader copies the old block when the new one is in place. -/
theorem Run.two : ∃ σ : Sys, Run .two σ ∧ ⟨0, 0, 1, [0]⟩ ∈ σ.reads := by
  have r := Run.init Sys.two_fresh
  have r := r.step (a := .read 0 0) (.read (by decide) rfl (by decide))
  have r := r.step (a := .go 0 0) (.go (by decide) rfl)
  have apart : ∀ a, Sys.two.live a = true → (Config.two.block 1).Apart (Config.two.block a) := by
    intro a live
    simp only [Sys.two, beq_iff_eq] at live
    subst live
    exact Or.inr (by decide)
  have r := r.step (a := .write 1 0 1) (.write (by decide) rfl (by decide) apart)
  have r := r.step (a := .go 1 7) (.go (by decide) rfl)
  have r := r.step (a := .go 1 7) (.go (by decide) rfl)
  have r := r.step (a := .go 1 7) (.go (by decide) rfl)
  have r := r.step (a := .go 1 7) (.go (by decide) rfl)
  have r := r.step (a := .go 0 0) (.go (by decide) rfl)
  have r := r.step (a := .go 0 0) (.go (by decide) rfl)
  exact ⟨_, r, List.mem_cons_self⟩

/-- `local_buf` fills up, one write after the other. -/
theorem Run.writes (n : Nat) (room : n ≤ rcuFreeBufSz) : ∃ σ : Sys, Run .two σ ∧ (∀ t, σ.pc t = .idle) ∧ σ.lock 0 = none ∧ σ.data 0 = n ∧
    σ.buf 1 = List.range n ∧ ∀ a, σ.live a = true ↔ a ≤ n := by
  induction n with
  | zero => exact ⟨_, .init Sys.two_fresh, fun _ => rfl, rfl, rfl, rfl, fun a => by simp [Sys.two]⟩
  | succ n ih =>
    obtain ⟨σ, r, idle, free, data, buf, live⟩ := ih (Nat.le_of_succ_le room)
    have apart : ∀ a, σ.live a = true → (Config.two.block (n + 1)).Apart (Config.two.block a) :=
      fun a used => Or.inr (Nat.succ_le_succ ((live a).mp used))
    have r := r.step (a := .write 1 0 (n + 1)) (.write (by decide) (idle 1) (by decide) apart)
    have r := r.step (a := .go 1 7) (.go (by decide) (if_pos free))
    have r := r.step (a := .go 1 7) (.go (by decide) rfl)
    have r := r.step (a := .go 1 7) (.go (by decide) rfl)
    have r := r.step (a := .go 1 7) (.go (by decide) rfl)
    have r := r.step (a := .go 1 7) (.go (by decide) rfl)
    have more : (σ.buf 1).length ≠ rcuFreeBufSz := by
      rw [buf, List.length_range]
      omega
    have r := r.step (a := .go 1 7) (.go (by decide) (if_neg more))
    refine ⟨_, r, ?_, rfl, rfl, ?_, ?_⟩
    · intro t
      by_cases writer : t = 1
      · subst writer
        rfl
      · simp [Sys.goto, Function.update_of_ne writer, idle]
    · simp [Sys.goto, buf, data, List.range_succ]
    · intro a
      by_cases new : a = n + 1
      · simp [Sys.goto, new]
      · simp only [Sys.goto, Function.update_of_ne new, live]
        omega

/-- The writer waits until the reader has left its section, and begins to free what it has kept. The reader reads again. -/
theorem Run.frees : ∃ σ : Sys, Run .two σ ∧ (∃ since, σ.pc 0 = .rdCopy 0 since (rcuFreeBufSz + 1) []) ∧ σ.pc 1 = .freeing rcuFreeBufSz 1 ∧
    σ.buf 1 = List.range rcuFreeBufSz ∧ σ.live 0 = false := by
  obtain ⟨σ, r, idle, free, data, buf, live⟩ := Run.writes rcuFreeBufSz (Nat.le_refl _)
  have r := r.step (a := .read 0 0) (.read (by decide) (idle 0) (by decide))
  have r := r.step (a := .go 0 0) (.go (by decide) rfl)
  have apart : ∀ a, σ.live a = true → (Config.two.block (rcuFreeBufSz + 1)).Apart (Config.two.block a) :=
    fun a used => Or.inr (Nat.succ_le_succ ((live a).mp used))
  have r := r.step (a := .write 1 0 (rcuFreeBufSz + 1)) (.write (by decide) (idle 1) (by decide) apart)
  have r := r.step (a := .go 1 7) (.go (by decide) (if_pos free))
  have r := r.step (a := .go 1 7) (.go (by decide) rfl)
  have r := r.step (a := .go 1 7) (.go (by decide) rfl)
  have r := r.step (a := .go 1 7) (.go (by decide) rfl)
  have r := r.step (a := .go 1 7) (.go (by decide) rfl)
  have full : (σ.buf 1).length = rcuFreeBufSz := by rw [buf, List.length_range]
  have freed : ∀ f : Nat → Bool, Function.update f ((σ.buf 1).getD 0 0) false 0 = false := by
    intro f
    have oldest : (σ.buf 1).getD 0 0 = 0 := by
      rw [buf]
      simp [rcuFreeBufSz]
    rw [oldest, Function.update_self]
  have r := r.step (a := .go 1 7) (.go (by decide) (if_pos full))
  -- the reader copies its byte and leaves
  have r := r.step (a := .go 0 0) (.go (by decide) rfl)
  have r := r.step (a := .go 0 0) (.go (by decide) rfl)
  have r := r.step (a := .go 1 7) (.go (by decide) rfl)
  have r := r.step (a := .go 1 7) (.go (by decide) rfl)
  have r := r.step (a := .read 0 0) (.read (by decide) rfl (by decide))
  have r := r.step (a := .go 0 0) (.go (by decide) rfl)
  refine ⟨_, r, ⟨_, rfl⟩, ?_, buf, freed _⟩
  change Pc.freeing (σ.data 0) 1 = _
  rw [data]

/-! ## Main results -/

/-- **A read returns one value that the object had while it ran.** Whatever the writers do in between, all bytes of a read are of one value,
and the object had it at some time between the begin and the end of the reader's section. -/
theorem rcu_reads_atomic (C : Config) (σ : Sys) (run : Run C σ) (read : Read) (member : read ∈ σ.reads) :
    ∃ k, read.since ≤ k ∧ k ≤ read.upto ∧ (σ.values read.id)[k]? = some read.got :=
  run.inv.done read member

/-- A reader that entered before a writer and ends after it. -/
theorem rcu_reads_atomic_behind : ∃ (σ : Sys) (read : Read), Run .two σ ∧ read ∈ σ.reads ∧
    ∃ k, read.since ≤ k ∧ k ≤ read.upto ∧ (σ.values read.id)[k]? = some read.got := by
  obtain ⟨σ, run, member⟩ := Run.two
  exact ⟨σ, _, run, member, rcu_reads_atomic .two σ run _ member⟩

/-- **No block is freed while it is read, or twice, or forgotten.** A reader copies from a block in use, and what `__rcu_free` gives to
`bi_free` is in use; each block in use is an object's or in one place at one core; and `local_buf` does not overflow. -/
theorem rcu_frees_safely (C : Config) (σ : Sys) (run : Run C σ) :
    (∀ r id since src got, σ.pc r = .rdCopy id since src got → σ.live src = true) ∧
      (∀ t old i, σ.pc t = .freeing old i → i < rcuFreeBufSz → σ.live ((σ.buf t).getD i 0) = true) ∧
      (∀ a, σ.live a = true → ∃! κ, a ∈ σ.own C κ) ∧ (∀ κ, (σ.own C κ).Nodup) ∧ ∀ t, (σ.buf t).length ≤ rcuFreeBufSz := by
  have inv := run.inv
  refine ⟨?_, ?_, ?_, inv.books.nodup, inv.room⟩
  · intro r id since src got at_
    obtain ⟨κ, shown⟩ := (inv.reading r id since src got at_).shown
    exact (inv.books.live src).mpr ⟨κ, Sys.own_of_shown shown⟩
  · intro t old i at_ more
    have full := inv.full t (by simp [at_, Pc.full])
    have inside : i < (σ.buf t).length := full ▸ more
    have kept : (σ.buf t).getD i 0 ∈ σ.kept t := by
      simp only [Sys.kept, at_, Pc.rest, List.drop_eq_getElem_cons inside, List.getD_eq_getElem?_getD, List.getElem?_eq_getElem inside,
        Option.getD_some]
      exact List.mem_cons_self
    apply (inv.books.live _).mpr
    exact ⟨.core t, Sys.own_of_shown (List.mem_append_right _ kept)⟩
  · intro a live
    obtain ⟨κ, held⟩ := (inv.books.live a).mp live
    exact ⟨κ, held, fun κ' held' => inv.books.unique held' held⟩

/-- A core has freed the first of the blocks it has kept, and goes on to the second, while another reads the object again. -/
theorem rcu_frees_safely_freeing : ∃ σ : Sys, Run .two σ ∧ σ.live 0 = false ∧ (∃ since, σ.pc 0 = .rdCopy 0 since (rcuFreeBufSz + 1) []) ∧
    σ.live (rcuFreeBufSz + 1) = true ∧ σ.pc 1 = .freeing rcuFreeBufSz 1 ∧ σ.live 1 = true ∧ ∃! κ, 1 ∈ σ.own .two κ := by
  obtain ⟨σ, run, ⟨since, reads⟩, frees, buf, freed⟩ := Run.frees
  obtain ⟨copied, given, once, _⟩ := rcu_frees_safely .two σ run
  have next : (σ.buf 1).getD 1 0 = 1 := by
    rw [buf]
    simp [rcuFreeBufSz]
  have second := given 1 _ 1 frees (by decide)
  rw [next] at second
  exact ⟨σ, run, freed, ⟨since, reads⟩, copied 0 0 since _ [] reads, frees, second, once 1 second⟩

end BiProject.AtomicObj
