import Mathlib.Data.List.Nodup
import Mathlib.Logic.Function.Basic

/-!
# Linearizable histories

A history is what is seen of an object from outside: clients call operations and get results back. It is linearizable
when its calls can be put in one order that the object could have served one after another: each call that returned
is in it with its result, and no call stands before one that had returned when it was made. The order need not be
guessed: where every call takes effect at one point of a run between its call and its return, the order of these points
will do.
-/

namespace BiProject.Lib.Histories
set_option autoImplicit false

variable {Client Op Res S : Type}

inductive Event (Client Op Res : Type) where
  | call (c : Client) (op : Op)
  | ret (c : Client) (r : Res)

def Event.client : Event Client Op Res → Client
  | .call c _ => c
  | .ret c _ => c

/-- The call at `i` returned at `j` with `r`: this is the next event of its client. -/
def Returned (h : List (Event Client Op Res)) (i j : Nat) (r : Res) : Prop :=
  ∃ c op, h[i]? = some (.call c op) ∧ h[j]? = some (.ret c r) ∧ i < j ∧
    ∀ m e, i < m → m < j → h[m]? = some e → e.client ≠ c

/-- A call of the history with the result it has in an order of all of them. -/
structure Entry (Op Res : Type) where
  index : Nat
  op : Op
  res : Res

/-- The object serves the calls one after another and gives these results. -/
def Legal (spec : S → Op → S × Res) : S → List (Entry Op Res) → Prop
  | _, [] => True
  | s, e :: es => (spec s e.op).2 = e.res ∧ Legal spec (spec s e.op).1 es

/-- What they leave. -/
def after (spec : S → Op → S × Res) (s : S) (es : List (Entry Op Res)) : S := es.foldl (fun s e => (spec s e.op).1) s

/-- An order of the calls that the object could have served. -/
structure Linearizes (spec : S → Op → S × Res) (s : S) (h : List (Event Client Op Res)) (es : List (Entry Op Res)) : Prop where
  nodup : (es.map Entry.index).Nodup
  called : ∀ e ∈ es, ∃ c, h[e.index]? = some (.call c e.op)
  complete : ∀ i j r, Returned h i j r → ∃ e ∈ es, e.index = i ∧ e.res = r
  order : es.Pairwise fun a b => ∀ j r, Returned h b.index j r → a.index < j
  legal : Legal spec s es

/-- **Linearizability**. -/
def Linearizable (spec : S → Op → S × Res) (s : S) (h : List (Event Client Op Res)) : Prop := ∃ es, Linearizes spec s h es

theorem legal_append {spec : S → Op → S × Res} {s : S} {es : List (Entry Op Res)} {e : Entry Op Res} :
    Legal spec s (es ++ [e]) ↔ Legal spec s es ∧ (spec (after spec s es) e.op).2 = e.res := by
  induction es generalizing s with
  | nil => simp [Legal, after]
  | cons x es ih =>
    simp only [List.cons_append, Legal, ih, after, List.foldl_cons, and_assoc]

@[simp] theorem after_append (spec : S → Op → S × Res) (s : S) (es : List (Entry Op Res)) (e : Entry Op Res) :
    after spec s (es ++ [e]) = (spec (after spec s es) e.op).1 := by
  simp [after]

/-! ## Points -/

/-- A call that has not returned, with its result once it took effect. -/
structure Pending (Op Res : Type) where
  index : Nat
  op : Op
  res : Option Res

/-- The calls that took effect so far, in order, and those that have not returned. -/
structure Points (h : List (Event Client Op Res)) (es : List (Entry Op Res)) (pend : Client → Option (Pending Op Res)) : Prop where
  nodup : (es.map Entry.index).Nodup
  called : ∀ e ∈ es, ∃ c, h[e.index]? = some (.call c e.op)
  complete : ∀ i j r, Returned h i j r → ∃ e ∈ es, e.index = i ∧ e.res = r
  order : es.Pairwise fun a b => ∀ j r, Returned h b.index j r → a.index < j
  last : ∀ c p, pend c = some p → h[p.index]? = some (.call c p.op) ∧ ∀ m e, p.index < m → h[m]? = some e → e.client ≠ c
  done : ∀ c p r, pend c = some p → p.res = some r → ⟨p.index, p.op, r⟩ ∈ es
  waits : ∀ c p, pend c = some p → p.res = none → ∀ e ∈ es, e.index ≠ p.index

section
variable {h : List (Event Client Op Res)} {es : List (Entry Op Res)} {pend : Client → Option (Pending Op Res)} {c : Client} {op : Op}
  {e : Event Client Op Res} {p : Pending Op Res} {r : Res} {i j : Nat}

theorem getElem?_snoc {x : Event Client Op Res} (entry : h[i]? = some x) : (h ++ [e])[i]? = some x := by
  rw [List.getElem?_append_left (List.getElem?_eq_some_iff.mp entry).1]
  exact entry

theorem getElem?_snoc_cases {x : Event Client Op Res} (entry : (h ++ [e])[i]? = some x) : h[i]? = some x ∨ i = h.length ∧ x = e := by
  rw [List.getElem?_append] at entry
  split at entry
  · exact Or.inl entry
  · refine Or.inr ?_
    obtain ⟨inside, same⟩ := List.getElem?_eq_some_iff.mp entry
    simp only [List.length_singleton] at inside
    refine ⟨by omega, ?_⟩
    simpa using same.symm

/-- A longer history has the returns of the shorter one, and the one that is its last event. -/
theorem returned_snoc (returned : Returned (h ++ [e]) i j r) :
    Returned h i j r ∨ j = h.length ∧ ∃ c op, e = .ret c r ∧ h[i]? = some (.call c op) ∧
      ∀ m x, i < m → h[m]? = some x → x.client ≠ c := by
  obtain ⟨c, op, call, ret, before, between⟩ := returned
  have early : h[i]? = some (.call c op) := by
    rcases getElem?_snoc_cases call with old | ⟨rfl, _⟩
    · exact old
    · have inside := (List.getElem?_eq_some_iff.mp ret).1
      rw [List.length_append, List.length_singleton] at inside
      omega
  rcases getElem?_snoc_cases ret with old | ⟨rfl, rfl⟩
  · exact Or.inl ⟨c, op, early, old, before, fun m x later sooner entry => between m x later sooner (getElem?_snoc entry)⟩
  · refine Or.inr ⟨rfl, c, op, rfl, early, fun m x later entry => ?_⟩
    exact between m x later (List.getElem?_eq_some_iff.mp entry).1 (getElem?_snoc entry)

theorem returned_lt (returned : Returned h i j r) : i < j ∧ j < h.length := by
  obtain ⟨c, op, _, ret, before, _⟩ := returned
  exact ⟨before, (List.getElem?_eq_some_iff.mp ret).1⟩

theorem Points.index_lt (points : Points h es pend) {x : Entry Op Res} (member : x ∈ es) : x.index < h.length := by
  obtain ⟨c, call⟩ := points.called x member
  exact (List.getElem?_eq_some_iff.mp call).1

theorem Points.start : Points ([] : List (Event Client Op Res)) [] fun _ => none := by
  refine ⟨List.nodup_nil, by simp, fun i j r returned => ?_, List.Pairwise.nil, by simp, by simp, by simp⟩
  have bound := returned_lt returned
  simp at bound

/-- The events so far stay where they are. -/
theorem Points.called_snoc (points : Points h es pend) (e : Event Client Op Res) :
    ∀ x ∈ es, ∃ c, (h ++ [e])[x.index]? = some (.call c x.op) := by
  intro x member
  obtain ⟨c, call⟩ := points.called x member
  exact ⟨c, getElem?_snoc call⟩

/-- An order that was right stays so: what was called is older than a new return. -/
theorem Points.order_snoc (points : Points h es pend) (e : Event Client Op Res) :
    es.Pairwise fun a b => ∀ j r, Returned (h ++ [e]) b.index j r → a.index < j := by
  refine points.order.imp_of_mem fun {a b} inside _ before j r returned => ?_
  rcases returned_snoc returned with old | ⟨rfl, _⟩
  · exact before j r old
  · exact points.index_lt inside

variable [DecidableEq Client]

/-- **A call** waits for its point. -/
theorem Points.call (points : Points h es pend) (c : Client) (op : Op) :
    Points (h ++ [.call c op]) es (Function.update pend c (some ⟨h.length, op, none⟩)) := by
  refine ⟨points.nodup, points.called_snoc _, fun i j r returned => ?_, points.order_snoc _, fun d p pending => ?_,
    fun d p r pending res => ?_, fun d p pending res x member => ?_⟩
  · rcases returned_snoc returned with old | ⟨_, _, _, other, _⟩
    · exact points.complete i j r old
    · cases other
  · by_cases same : d = c
    · subst same
      rw [Function.update_self, Option.some.injEq] at pending
      subst pending
      refine ⟨by simp, fun m e later entry => ?_⟩
      have inside := (List.getElem?_eq_some_iff.mp entry).1
      rw [List.length_append, List.length_singleton] at inside
      exact absurd inside (by simp only at later; omega)
    · rw [Function.update_of_ne same] at pending
      obtain ⟨call, later⟩ := points.last d p pending
      refine ⟨getElem?_snoc call, fun m e behind entry => ?_⟩
      rcases getElem?_snoc_cases entry with old | ⟨_, rfl⟩
      · exact later m e behind old
      · exact Ne.symm same
  · by_cases same : d = c
    · subst same
      rw [Function.update_self, Option.some.injEq] at pending
      subst pending
      cases res
    · rw [Function.update_of_ne same] at pending
      exact points.done d p r pending res
  · by_cases same : d = c
    · subst same
      rw [Function.update_self, Option.some.injEq] at pending
      subst pending
      exact Nat.ne_of_lt (points.index_lt member)
    · rw [Function.update_of_ne same] at pending
      exact points.waits d p pending res x member

/-- **The point** where a call takes effect. -/
theorem Points.point (points : Points h es pend) (pending : pend c = some ⟨i, op, none⟩) (r : Res) :
    Points h (es ++ [⟨i, op, r⟩]) (Function.update pend c (some ⟨i, op, some r⟩)) := by
  obtain ⟨call, later⟩ := points.last c _ pending
  have open_ : ∀ j r, ¬ Returned h i j r := by
    rintro j r ⟨d, op', call', ret, before, _⟩
    have same := Option.some.inj (call.symm.trans call')
    cases same
    exact later j _ before ret rfl
  refine ⟨?_, fun x member => ?_, fun k j r' returned => ?_, ?_, fun d p waiting => ?_, fun d p r' waiting res => ?_,
    fun d p waiting res x member => ?_⟩
  · rw [List.map_append, List.map_singleton, List.nodup_append']
    refine ⟨points.nodup, List.nodup_singleton _, fun k inside twice => ?_⟩
    obtain ⟨x, member, rfl⟩ := List.mem_map.mp inside
    exact points.waits c _ pending rfl x member (List.mem_singleton.mp twice)
  · rcases List.mem_append.mp member with old | new
    · exact points.called x old
    · rw [List.mem_singleton.mp new]
      exact ⟨c, call⟩
  · obtain ⟨x, member, same⟩ := points.complete k j r' returned
    exact ⟨x, List.mem_append_left _ member, same⟩
  · rw [List.pairwise_append]
    refine ⟨points.order, List.pairwise_singleton _ _, fun a _ b new j r' returned => ?_⟩
    rw [List.mem_singleton.mp new] at returned
    exact absurd returned (open_ j r')
  · by_cases same : d = c
    · subst same
      rw [Function.update_self, Option.some.injEq] at waiting
      subst waiting
      exact ⟨call, later⟩
    · rw [Function.update_of_ne same] at waiting
      exact points.last d p waiting
  · by_cases same : d = c
    · subst same
      rw [Function.update_self, Option.some.injEq] at waiting
      subst waiting
      rw [Option.some.injEq] at res
      subst res
      simp
    · rw [Function.update_of_ne same] at waiting
      exact List.mem_append_left _ (points.done d p r' waiting res)
  · by_cases same : d = c
    · subst same
      rw [Function.update_self, Option.some.injEq] at waiting
      subst waiting
      cases res
    · rw [Function.update_of_ne same] at waiting
      rcases List.mem_append.mp member with old | new
      · exact points.waits d p waiting res x old
      · rw [List.mem_singleton.mp new]
        -- two clients have not made one call
        intro equal
        have twice := (points.last d p waiting).1
        rw [← equal, call, Option.some.injEq] at twice
        cases twice
        exact same rfl

/-- **The return** of a call that took effect. -/
theorem Points.ret (points : Points h es pend) (pending : pend c = some ⟨i, op, some r⟩) :
    Points (h ++ [.ret c r]) es (Function.update pend c none) := by
  obtain ⟨call, later⟩ := points.last c _ pending
  have others : ∀ d p, Function.update pend c none d = some p → d ≠ c ∧ pend d = some p := by
    intro d p waiting
    by_cases same : d = c
    · subst same
      simp at waiting
    · rw [Function.update_of_ne same] at waiting
      exact ⟨same, waiting⟩
  refine ⟨points.nodup, points.called_snoc _, fun k j r' returned => ?_, points.order_snoc _, fun d p waiting => ?_,
    fun d p r' waiting res => ?_, fun d p waiting res x member => ?_⟩
  · rcases returned_snoc returned with old | ⟨_, d, op', last, before, between⟩
    · exact points.complete k j r' old
    · cases last
      -- it is the last call of the client
      have same : k = i := by
        rcases Nat.lt_trichotomy k i with less | same | more
        · exact absurd rfl (between i _ less call)
        · exact same
        · exact absurd rfl (later k _ more before)
      subst same
      exact ⟨_, points.done c _ r pending rfl, rfl, rfl⟩
  · obtain ⟨same, waiting⟩ := others d p waiting
    obtain ⟨old, behind⟩ := points.last d p waiting
    refine ⟨getElem?_snoc old, fun m e later entry => ?_⟩
    rcases getElem?_snoc_cases entry with old | ⟨_, rfl⟩
    · exact behind m e later old
    · exact Ne.symm same
  · exact points.done d p r' (others d p waiting).2 res
  · exact points.waits d p (others d p waiting).2 res x member

end

/-- **A run whose calls take effect one after another as the object serves them has a linearizable history.** -/
theorem Points.linearizable {h : List (Event Client Op Res)} {es : List (Entry Op Res)} {pend : Client → Option (Pending Op Res)}
    (points : Points h es pend) {spec : S → Op → S × Res} {s : S} (legal : Legal spec s es) : Linearizable spec s h :=
  ⟨es, points.nodup, points.called, points.complete, points.order, legal⟩

end BiProject.Lib.Histories
