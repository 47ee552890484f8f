import BiProject.RpcCache.Receiver

/-!
# Requests and replies on caches that are not coherent

Of the slots of a ring only the next one to be received is ever not quiet, since the client waits for the reply before its next
request. So what is received is what was sent, as long as no receiver gives a header back before the sender's call has
returned.
-/

namespace BiProject.RpcCache
set_option autoImplicit false
open BiProject.Lib
open BiProject.Rpc (Msg msgNum maxMsgSize)

/-! ## A ring -/

/-- A receiver without a message looks at the slot in use. -/
def Waits (i : Nat) (receiving : Option Receiving) (node : MsgNode) : Prop :=
  ∀ r, receiving = some r → r.cur = i ∧ Looks r ∧ (r.flush = false → Fresh node)

/-- The message in the slot is the one the sender's call is about. -/
def Sends (i : Nat) (msg : Msg) (sending : Option Sending) : Prop := ∀ s, sending = some s → s.msg = msg ∧ s.cur = i

/-- What is in the slot in use. -/
inductive Phase (sent got : List Msg) (sending : Option Sending) (receiving : Option Receiving) (node : MsgNode) : Prop
  | empty (all : sent = got) (idle : sending = none) (quiet : Quiet node) (waits : Waits (got.length % msgNum) receiving node)
  | filling (msg : Msg) (one : sent = got ++ [msg]) (sends : Sends (got.length % msgNum) msg sending)
      (filling : Filling msg node (sending.map Sending.pc)) (waits : Waits (got.length % msgNum) receiving node)
  | reading (msg : Msg) (r : Receiving) (one : sent = got ++ [msg]) (sends : Sends (got.length % msgNum) msg sending)
      (here : receiving = some r) (cur : r.cur = got.length % msgNum) (reading : Reading msg node (sending.map Sending.pc) r)

/-- **The invariant of a ring.** -/
structure ChanOk (c : Chan) : Prop where
  sizes : ∀ msg ∈ c.sent, Sizes msg
  head : c.sending = none → c.head % msgNum = c.sent.length % msgNum
  tail : c.tail % msgNum = c.got.length % msgNum
  quiet : ∀ j, j ≠ c.got.length % msgNum → Quiet (c.slot j)
  phase : Phase c.sent c.got c.sending c.receiving (c.slot (c.got.length % msgNum))

/-- Data that the receiver has not in its cache stays out of it. -/
def Drops (c c' : Chan) : Prop := ∀ i l, ((c.slot i).data l).copy .rcv = none → ((c'.slot i).data l).copy .rcv = none

section
variable {c c' : Chan} {msg : Msg} {node : MsgNode} {i : Nat}

/-- It holds of a ring of empty slots. -/
theorem ChanOk.init (size : Nat → Nat) (bytes : Nat → Nat → Nat → UInt8) : ChanOk (Chan.init size bytes) := by
  have quiet (j : Nat) : Quiet ((Chan.init size bytes).slot j) := by
    have hdr : HdrQuiet ((Chan.init size bytes).slot j).hdr := ⟨rfl, by simp [Chan.init, Line.fresh, Line.Clean],
      by simp [Chan.init, Line.fresh, Line.Clean], by simp [Chan.init, Line.fresh]⟩
    exact ⟨hdr, fun l => ⟨rfl, by simp [Chan.init, Line.fresh, Line.Clean], by simp [Chan.init, Line.fresh, Line.Clean]⟩⟩
  refine ⟨by simp [Chan.init], fun _ => rfl, rfl, fun j _ => quiet j, .empty rfl rfl (quiet _) ?_⟩
  intro r here
  cases here

/-- What is received is what was sent, as far as it goes. -/
theorem ChanOk.got_prefix (ok : ChanOk c) : c.got <+: c.sent := by
  cases ok.phase with
  | empty all => exact ⟨[], by rw [all, List.append_nil]⟩
  | filling msg one => exact ⟨[msg], one.symm⟩
  | reading msg r one => exact ⟨[msg], one.symm⟩

/-- A sender begins when all before has been received. -/
theorem ChanOk.beginSend (ok : ChanOk c) (idle : c.sending = none) (all : c.sent.length = c.got.length) (sizes : Sizes msg) :
    ChanOk (c.beginSend msg) := by
  refine ⟨?_, nofun, ok.tail, ok.quiet, ?_⟩
  · intro m member
    rcases List.mem_append.mp member with old | new
    · exact ok.sizes m old
    · rw [List.mem_singleton.mp new]
      exact sizes
  · cases ok.phase with
    | empty same _ quiet waits =>
      refine .filling msg (by rw [Chan.beginSend, same]) ?_ (quiet.begin msg) waits
      intro s here
      cases here
      exact ⟨rfl, by rw [ok.head idle, all]; rfl⟩
    | filling m one => simp [one] at all
    | reading m r one => simp [one] at all

/-- A receiver begins with none of the slot's data in its cache, or flushes it. -/
theorem ChanOk.beginRecv {flush spin : Bool} (ok : ChanOk c) (idle : c.receiving = none)
    (fresh : flush = false → Fresh (c.slot (c.got.length % msgNum))) : ChanOk (c.beginRecv flush spin) := by
  have waits : Waits (c.got.length % msgNum) (c.beginRecv flush spin).receiving (c.slot (c.got.length % msgNum)) := by
    intro r here
    cases here
    exact ⟨ok.tail, looks_start ⟨flush, spin, c.tail % msgNum, 0, [], .use⟩, fresh⟩
  refine ⟨ok.sizes, ok.head, ok.tail, ok.quiet, ?_⟩
  cases ok.phase with
  | empty all noSend quiet => exact .empty all noSend quiet waits
  | filling m one sends filling => exact .filling m one sends filling waits
  | reading m r one sends here =>
    rw [idle] at here
    cases here

/-! ## The sender -/

/-- A change of the slot in use leaves the others quiet. -/
theorem ChanOk.update {head tail : Nat} {sending : Option Sending} {receiving : Option Receiving} (ok : ChanOk c)
    (headAt : sending = none → head % msgNum = c.sent.length % msgNum) (tailAt : tail % msgNum = c.got.length % msgNum)
    (phase : Phase c.sent c.got sending receiving node) :
    ChanOk ⟨Function.update c.slot (c.got.length % msgNum) node, head, tail, sending, receiving, c.sent, c.got⟩ := by
  refine ⟨ok.sizes, headAt, tailAt, ?_, ?_⟩
  · intro j other
    change Quiet (Function.update c.slot (c.got.length % msgNum) node j)
    rw [Function.update_of_ne other]
    exact ok.quiet j other
  · change Phase c.sent c.got sending receiving (Function.update c.slot (c.got.length % msgNum) node (c.got.length % msgNum))
    rwa [Function.update_self]

/-- A receiver waits on as long as the data in its cache is the same. -/
theorem Waits.congr {receiving : Option Receiving} {node' : MsgNode} (waits : Waits i receiving node)
    (data : ∀ l, (node'.data l).copy .rcv = (node.data l).copy .rcv) : Waits i receiving node' := by
  intro r here
  obtain ⟨cur, looks, fresh⟩ := waits r here
  refine ⟨cur, looks, fun noFlush l low => ?_⟩
  rw [data, fresh noFlush l low]

/-- **A step of the sender.** -/
theorem ChanOk.goSend (ok : ChanOk c) (next : c.goSend = some c') :
    ChanOk c' ∧ c'.sent = c.sent ∧ c'.got = c.got ∧ c'.receiving = c.receiving ∧ Drops c c' := by
  unfold Chan.goSend at next
  split at next
  · cases next
  rename_i s here
  cases run : rpcSendExt (c.slot s.cur) c.head s with
  | mk node rest =>
    obtain ⟨pos, out⟩ := rest
    simp only [run, Option.some.injEq] at next
    subst next
    obtain ⟨goes, returns⟩ := send_keeps run
    have rcv := send_rcv run
    have drops : Drops c { c with slot := Function.update c.slot s.cur node, head := pos, sending := out } := by
      intro j l none
      change ((Function.update c.slot s.cur node j).data l).copy .rcv = Option.none
      by_cases same : j = s.cur
      · subst same
        rw [Function.update_self, rcv, none]
      · rw [Function.update_of_ne same, none]
    refine ⟨?_, rfl, rfl, rfl, drops⟩
    have sends' {m : Msg} (sends : Sends (c.got.length % msgNum) m c.sending) : Sends (c.got.length % msgNum) m out := by
      intro s' there
      obtain ⟨msg, cur, _⟩ := goes s' there
      rw [msg, cur]
      exact sends s here
    have head {m : Msg} (one : c.sent = c.got ++ [m]) (cur : s.cur = c.got.length % msgNum) (done : out = none) :
        pos % msgNum = c.sent.length % msgNum := by
      rw [returns done, cur, one, List.length_append, List.length_singleton, Nat.mod_add_mod]
    cases ok.phase with
    | empty _ idle =>
      rw [here] at idle
      cases idle
    | filling m one sends filling waits =>
      obtain ⟨rfl, cur⟩ := sends s here
      rw [← cur, here] at filling
      rw [cur]
      refine ok.update (head one cur) ok.tail (.filling s.msg one (sends' sends) (filling.step run) (waits.congr fun l => ?_))
      rw [rcv, cur]
    | reading m r one sends there cur' reading =>
      obtain ⟨rfl, cur⟩ := sends s here
      rw [← cur, here] at reading
      rw [cur]
      exact ok.update (head one cur) ok.tail (.reading s.msg r one (sends' sends) there cur' (reading.send run))

/-! ## The receiver -/

/-- A slot that is through is quiet like the others. -/
theorem ChanOk.quiet_after (ok : ChanOk c) (cur : i = c.got.length % msgNum) (quiet : Quiet node) (j : Nat) :
    Quiet (Function.update c.slot i node j) := by
  by_cases same : j = i
  · rwa [same, Function.update_self]
  · rw [Function.update_of_ne same]
    exact ok.quiet j (cur ▸ same)

/-- A look without a message. -/
theorem ChanOk.looked {r : Receiving} {pos : Nat} {out : Receiving ⊕ Msg} (ok : ChanOk c) (here : c.receiving = some r)
    (phase : ∀ receiving, Waits (c.got.length % msgNum) receiving node → Phase c.sent c.got c.sending receiving node)
    (waits : Waits (c.got.length % msgNum) c.receiving (c.slot (c.got.length % msgNum))) (data : node.data = (c.slot (c.got.length % msgNum)).data)
    (run : rpcRecvExt (c.slot r.cur) c.tail r = (node, pos, out)) (same : pos = c.tail)
    (goes : out = .inr [] ∨ ∃ r', out = .inl r' ∧ r'.cur = r.cur ∧ r'.flush = r.flush ∧ Looks r') (next : c.goRecv = some c') :
    ChanOk c' ∧ c'.sent = c.sent ∧ c.got.length ≤ c'.got.length := by
  obtain ⟨cur, _, fresh⟩ := waits r here
  subst same
  simp only [Chan.goRecv, here, run] at next
  rcases goes with rfl | ⟨r', rfl, cur', flush, looks⟩
  · simp only [if_true, Option.some.injEq] at next
    subst next
    rw [cur]
    exact ⟨ok.update ok.head ok.tail (phase none nofun), rfl, Nat.le_refl _⟩
  · simp only [Option.some.injEq] at next
    subst next
    rw [cur]
    refine ⟨ok.update ok.head ok.tail (phase _ ?_), rfl, Nat.le_refl _⟩
    intro r'' there
    cases there
    refine ⟨cur'.trans cur, looks, fun noFlush => ?_⟩
    unfold Fresh
    rw [data]
    exact fresh (flush ▸ noFlush)

/-- **A step of the receiver**, which does not give a header back before it is through with it. -/
theorem ChanOk.goRecv (ok : ChanOk c) (patient : c.early = false) (next : c.goRecv = some c') :
    ChanOk c' ∧ c'.sent = c.sent ∧ c.got.length ≤ c'.got.length := by
  cases here : c.receiving with
  | none => simp [Chan.goRecv, here] at next
  | some r =>
    cases run : rpcRecvExt (c.slot r.cur) c.tail r with
    | mk node rest =>
      obtain ⟨pos, out⟩ := rest
      cases ok.phase with
      | empty all idle quiet waits =>
        obtain ⟨cur, looks, _⟩ := waits r here
        have run' := run
        rw [cur] at run'
        obtain ⟨same, peek, data, goes⟩ := look_step looks ⟨quiet.hdr.rcv, fun l => (quiet.data l).rcv⟩ (fun _ => quiet.hdr.view) run'
        exact ok.looked here (fun _ => .empty all idle (quiet.peek peek)) waits data run same goes next
      | filling msg one sends filling waits =>
        obtain ⟨cur, looks, fresh⟩ := waits r here
        have run' := run
        rw [cur] at run'
        by_cases found : r.pc = .use ∧ ((c.slot (c.got.length % msgNum)).hdr.view .rcv).use ≠ 0
        · obtain ⟨node', r', took, cur', _, reading⟩ := filling.take c.tail found.1 found.2 fresh
          rw [took] at run'
          cases run'
          simp only [Chan.goRecv, here, run, Option.some.injEq] at next
          subst next
          rw [cur]
          exact ⟨ok.update ok.head ok.tail (.reading msg r' one sends rfl (cur'.trans cur) reading), rfl, Nat.le_refl _⟩
        · have nothing : r.pc = .use → ((c.slot (c.got.length % msgNum)).hdr.view .rcv).use = 0 :=
            fun at' => Decidable.byContradiction fun used => found ⟨at', used⟩
          obtain ⟨same, peek, data, goes⟩ := look_step looks filling.clean nothing run'
          exact ok.looked here (fun _ => .filling msg one sends (filling.peek peek)) waits data run same goes next
      | reading msg r₀ one sends there cur reading =>
        rw [here] at there
        cases there
        have run' := run
        rw [cur] at run'
        have sizes : Sizes msg := ok.sizes msg (by simp [one])
        cases out with
        | inl r' =>
          obtain ⟨same, cur', _, reading'⟩ := reading.step sizes run'
          subst same
          simp only [Chan.goRecv, here, run, Option.some.injEq] at next
          subst next
          rw [cur]
          exact ⟨ok.update ok.head ok.tail (.reading msg r' one sends rfl (cur'.trans cur) reading'), rfl, Nat.le_refl _⟩
        | inr got =>
          -- The receiver gives the header back: the sender's call has returned.
          have idle : c.sending = none := by
            have last := reading.last run'
            simpa [Chan.early, here, last] using patient
          rw [idle] at reading
          obtain ⟨rfl, after, quiet⟩ := reading.returns run'
          have some : got ≠ [] := by
            rintro rfl
            exact absurd sizes.1 (by simp)
          simp only [Chan.goRecv, here, run, some, if_false, Option.some.injEq] at next
          subst next
          refine ⟨⟨ok.sizes, ok.head, ?_, ?_, ?_⟩, rfl, by simp⟩
          · change pos % msgNum = (c.got ++ [got]).length % msgNum
            rw [after, cur, List.length_append, List.length_singleton, Nat.mod_add_mod]
          · intro j _
            exact ok.quiet_after cur quiet j
          · exact .empty one idle (ok.quiet_after cur quiet _) nofun

/-! ## The hardware and the flushes -/

/-- A change of a slot that keeps it quiet, and what it holds. -/
theorem ChanOk.onSlot {f : MsgNode → MsgNode} (ok : ChanOk c) (i : Nat) (quiet : ∀ node, Quiet node → Quiet (f node))
    (phase : Phase c.sent c.got c.sending c.receiving (c.slot (c.got.length % msgNum)) →
      Phase c.sent c.got c.sending c.receiving (f (c.slot (c.got.length % msgNum)))) : ChanOk (c.onSlot i f) := by
  by_cases same : i = c.got.length % msgNum
  · subst same
    exact ok.update ok.head ok.tail (phase ok.phase)
  · refine ⟨ok.sizes, ok.head, ok.tail, ?_, ?_⟩
    · intro j other
      change Quiet (Function.update c.slot i (f (c.slot i)) j)
      by_cases here : j = i
      · rw [here, Function.update_self]
        exact quiet _ (ok.quiet i same)
      · rw [Function.update_of_ne here]
        exact ok.quiet j other
    · change Phase _ _ _ _ (Function.update c.slot i (f (c.slot i)) (c.got.length % msgNum))
      rw [Function.update_of_ne (Ne.symm same)]
      exact ok.phase

/-- A change of a slot drops data if it drops that of each line. -/
theorem Drops.onSlot {f : MsgNode → MsgNode} (i : Nat)
    (drops : ∀ node l, (node.data l).copy .rcv = none → ((f node).data l).copy .rcv = none) : Drops c (c.onSlot i f) := by
  intro j l none
  change ((Function.update c.slot i (f (c.slot i)) j).data l).copy .rcv = Option.none
  by_cases same : j = i
  · subst same
    rw [Function.update_self]
    exact drops _ l none
  · rwa [Function.update_of_ne same]

/-- **The hardware writes a line back.** -/
theorem ChanOk.writeBack (ok : ChanOk c) (e : End) (i : Nat) (l : Option Nat) : ChanOk (c.writeBack e i l) := by
  cases l with
  | none =>
    change ChanOk (c.onSlot i fun node => node.onHdr fun line => line.writeBack e)
    refine ok.onSlot i (fun node quiet => ?_) fun phase => ?_
    · rwa [quiet.hdr.onHdr_writeBack]
    · cases phase with
      | empty all idle quiet waits =>
        rw [quiet.hdr.onHdr_writeBack]
        exact .empty all idle quiet waits
      | filling msg one sends filling waits => exact .filling msg one sends (filling.writeBackHdr e) waits
      | reading msg r one sends here cur reading => exact .reading msg r one sends here cur (reading.writeBackHdr e)
  | some l =>
    change ChanOk (c.onSlot i fun node => node.onData l fun line => line.writeBack e)
    refine ok.onSlot i (fun node quiet => ?_) fun phase => ?_
    · rwa [onData_writeBack (quiet.data l)]
    · cases phase with
      | empty all idle quiet waits =>
        rw [onData_writeBack (quiet.data l)]
        exact .empty all idle quiet waits
      | filling msg one sends filling waits =>
        refine .filling msg one sends (filling.writeBackData l e) fun r here => ?_
        obtain ⟨cur, looks, fresh⟩ := waits r here
        exact ⟨cur, looks, fun noFlush j low => dropped_writeBack _ l e (fresh noFlush j low)⟩
      | reading msg r one sends here cur reading =>
        rw [onData_writeBack (reading.data l)]
        exact .reading msg r one sends here cur reading

/-- That brings no data into the receiver's cache. -/
theorem writeBack_drops (c : Chan) (e : End) (i : Nat) (l : Option Nat) : Drops c (c.writeBack e i l) := by
  cases l with
  | none =>
    change Drops c (c.onSlot i fun node => node.onHdr fun line => line.writeBack e)
    exact Drops.onSlot i fun node j none => none
  | some l => exact Drops.onSlot i fun node j none => dropped_writeBack node l e none

/-- A flush of the receiver while it is in no call. -/
theorem ChanOk.flushLine (ok : ChanOk c) (idle : c.receiving = none) (n : Nat) : ChanOk (c.flushLine n) := by
  have peeks (f : MsgNode → MsgNode)
      (peek : ∀ node, node.hdr.Clean .rcv ∧ (∀ l, (node.data l).Clean .rcv) → (∀ v d, node.hdr.copy .rcv = some (v, d) → v.use = 0) →
        Peek node (f node)) : ChanOk (c.onSlot (n / slotLines) f) := by
    refine ok.onSlot _ (fun node quiet => quiet.peek (peek node ⟨quiet.hdr.rcv, fun l => (quiet.data l).rcv⟩ quiet.hdr.seen)) fun phase => ?_
    have waits (node : MsgNode) : Waits (c.got.length % msgNum) c.receiving node := by
      rw [idle]
      exact nofun
    cases phase with
    | empty all noSend quiet =>
      exact .empty all noSend (quiet.peek (peek _ ⟨quiet.hdr.rcv, fun l => (quiet.data l).rcv⟩ quiet.hdr.seen)) (waits _)
    | filling msg one sends filling => exact .filling msg one sends (filling.peek (peek _ filling.clean filling.seen)) (waits _)
    | reading msg r one sends here =>
      rw [idle] at here
      cases here
  apply peeks
  intro node clean seen
  cases n % slotLines with
  | zero => exact Peek.flushHdr clean
  | succ l => exact Peek.flushData l clean seen

/-- Neither does a flush. -/
theorem flushLine_drops (c : Chan) (n : Nat) : Drops c (c.flushLine n) := by
  refine Drops.onSlot _ fun node l none => ?_
  cases n % slotLines with
  | zero => exact none
  | succ j =>
    change ((node.onData j fun line => line.clflush .rcv).data l).copy .rcv = Option.none
    by_cases line : l = j
    · subst line
      rw [onData_self]
      exact (node.data l).clflush_copy .rcv
    · rwa [onData_other node _ line]

/-- The lines of data before `n` in the ring are out of the receiver's cache. -/
def Flushed (c : Chan) (n : Nat) : Prop :=
  ∀ i l, l < dataLines maxMsgSize → i * slotLines + (l + 1) < n → ((c.slot i).data l).copy .rcv = none

/-- Lines that are out stay out, -/
theorem Flushed.drops {n : Nat} (flushed : Flushed c n) (drops : Drops c c') : Flushed c' n :=
  fun i l low before => drops i l (flushed i l low before)

/-- one flush takes out one more, -/
theorem Flushed.step {n : Nat} (flushed : Flushed c n) : Flushed (c.flushLine n) (n + 1) := by
  intro i l low before
  by_cases last : i * slotLines + (l + 1) = n
  · have slot : n / slotLines = i := by
      rw [← last]
      unfold slotLines
      rw [Nat.mul_comm, Nat.mul_add_div (by omega), Nat.div_eq_of_lt (by omega), Nat.add_zero]
    have line : n % slotLines = l + 1 := by
      rw [← last]
      unfold slotLines
      rw [Nat.mul_comm, Nat.mul_add_mod, Nat.mod_eq_of_lt (by omega)]
    simp only [Chan.flushLine, Chan.onSlot, slot, line, Function.update_self, onData_self]
    exact Line.clflush_copy _ End.rcv
  · exact flushLine_drops c n i l (flushed i l low (by omega))

/-- and after all flushes none is left. -/
theorem Flushed.all {n : Nat} (flushed : Flushed c n) (enough : msgNum * slotLines ≤ n) (inside : i < msgNum) : Fresh (c.slot i) := by
  intro l low
  apply flushed i l low
  have next : (i + 1) * slotLines ≤ msgNum * slotLines := Nat.mul_le_mul_right _ inside
  rw [Nat.succ_mul] at next
  have size : l + 1 < slotLines := by
    unfold slotLines
    omega
  omega

end

/-! ## A client and a server -/

/-- **The invariant of a client and a server.** -/
structure SysOk (σ : Sys) : Prop where
  req : ChanOk σ.req
  rep : ChanOk σ.rep
  asked : σ.rep.sent.length ≤ σ.req.got.length
  waited : σ.req.sent.length ≤ σ.rep.got.length + 1
  fresh : σ.flushed = true → ∀ i < msgNum, Fresh (σ.req.slot i)
  flushing : ∀ n, σ.flushing = some n → Flushed σ.req n
  looking : σ.req.receiving ≠ none → σ.flushed = false ∧ σ.flushing = none

section
variable {σ σ' : Sys} {a : Act}

/-- It holds at the start. -/
theorem SysOk.init (size : Way → Nat → Nat) (bytes : Way → Nat → Nat → Nat → UInt8) : SysOk (Sys.init size bytes) :=
  ⟨ChanOk.init _ _, ChanOk.init _ _, Nat.le_refl _, Nat.zero_le _, fun _ _ _ _ _ => rfl, nofun, fun busy => absurd rfl busy⟩

/-- A step on the requests that is not the server's. -/
theorem SysOk.onReq {c : Chan} (ok : SysOk σ) (chan : ChanOk c) (sent : c.sent.length ≤ σ.rep.got.length + 1) (got : c.got = σ.req.got)
    (receiving : c.receiving = σ.req.receiving) (drops : Drops σ.req c) : SysOk { σ with req := c } := by
  refine ⟨chan, ok.rep, ?_, sent, ?_, fun n here => (ok.flushing n here).drops drops, ?_⟩
  · rw [got]
    exact ok.asked
  · intro flushed i inside l low
    exact drops i l (ok.fresh flushed i inside l low)
  · rw [receiving]
    exact ok.looking

/-- A step on the replies. -/
theorem SysOk.onRep {c : Chan} (ok : SysOk σ) (chan : ChanOk c) (sent : c.sent.length ≤ σ.req.got.length)
    (got : σ.rep.got.length ≤ c.got.length) : SysOk { σ with rep := c } :=
  ⟨ok.req, chan, sent, Nat.le_trans ok.waited (Nat.succ_le_succ got), ok.fresh, ok.flushing, ok.looking⟩

/-! ### The calls begin -/

/-- The client sends when it has its reply. -/
theorem SysOk.rpcSend {msg : Msg} (ok : SysOk σ) (next : σ.step (.rpcSend msg) = some σ') : SysOk σ' := by
  simp only [Sys.step, Option.ite_none_right_eq_some, Option.some.injEq] at next
  obtain ⟨⟨idle, sizes, turn⟩, rfl⟩ := next
  have received := ok.req.got_prefix.length_le
  have asked := ok.asked
  have all : σ.req.sent.length = σ.req.got.length := by
    have replies := ok.rep.got_prefix.length_le
    omega
  apply ok.onReq (ok.req.beginSend (Option.isNone_iff_eq_none.mp idle.1) all sizes) ?_ rfl rfl fun _ _ none => none
  change (σ.req.sent ++ [msg]).length ≤ _
  rw [List.length_append, List.length_singleton]
  omega

/-- The server sends when it has a request. -/
theorem SysOk.rpcSendServer {msg : Msg} (ok : SysOk σ) (next : σ.step (.rpcSendServer msg) = some σ') : SysOk σ' := by
  simp only [Sys.step, Option.ite_none_right_eq_some, Option.some.injEq] at next
  obtain ⟨⟨idle, sizes, owed⟩, rfl⟩ := next
  have received := ok.rep.got_prefix.length_le
  have all : σ.rep.sent.length = σ.rep.got.length := by
    have requests := ok.req.got_prefix.length_le
    have waited := ok.waited
    omega
  apply ok.onRep (ok.rep.beginSend (Option.isNone_iff_eq_none.mp idle.2.1) all sizes) ?_ (Nat.le_refl _)
  change (σ.rep.sent ++ [msg]).length ≤ _
  rw [List.length_append, List.length_singleton]
  exact owed

/-- The server looks for a request when it has dropped what it had of the ring. -/
theorem SysOk.rpcRecvServer (ok : SysOk σ) (next : σ.step .rpcRecvServer = some σ') : SysOk σ' := by
  simp only [Sys.step, Option.ite_none_right_eq_some, Option.some.injEq] at next
  obtain ⟨⟨idle, flushed⟩, rfl⟩ := next
  have fresh := ok.fresh flushed (σ.req.got.length % msgNum) (Nat.mod_lt _ (by decide))
  have chan : ChanOk (σ.req.beginRecv false false) := ok.req.beginRecv (Option.isNone_iff_eq_none.mp idle.1) fun _ => fresh
  exact ⟨chan, ok.rep, ok.asked, ok.waited, nofun, ok.flushing, fun _ => ⟨rfl, Option.isNone_iff_eq_none.mp idle.2.2⟩⟩

/-! ### The calls go on -/

/-- The server flushes a line. -/
theorem SysOk.flushes (ok : SysOk σ) (next : σ.step .flushes = some σ') : SysOk σ' := by
  cases here : σ.flushing with
  | none => simp [Sys.step, here] at next
  | some n =>
    have idle : σ.req.receiving = none := by
      apply Decidable.byContradiction
      intro busy
      rw [(ok.looking busy).2] at here
      cases here
    simp only [Sys.step, here] at next
    split at next
    · cases next
      refine ⟨ok.req.flushLine idle n, ok.rep, ok.asked, ok.waited, ?_, ?_, fun busy => absurd idle busy⟩
      · intro flushed i inside l low
        exact flushLine_drops σ.req n i l (ok.fresh flushed i inside l low)
      · intro m there
        cases there
        exact (ok.flushing n here).step
    · rename_i enough
      cases next
      exact ⟨ok.req, ok.rep, ok.asked, ok.waited, fun _ i inside => (ok.flushing n here).all (Nat.le_of_not_lt enough) inside, nofun,
        fun busy => absurd idle busy⟩

/-- The server goes on in its call, or returns from it. -/
theorem SysOk.serverReceives (ok : SysOk σ) (patient : σ.patient .serverReceives) (next : σ.step .serverReceives = some σ') : SysOk σ' := by
  simp only [Sys.step, Option.map_eq_some_iff] at next
  obtain ⟨c, step, rfl⟩ := next
  have busy : σ.req.receiving ≠ none := by
    intro idle
    simp [Chan.goRecv, idle] at step
  obtain ⟨notFlushed, notFlushing⟩ := ok.looking busy
  obtain ⟨chan, sent, got⟩ := ok.req.goRecv patient step
  refine ⟨chan, ok.rep, Nat.le_trans ok.asked got, ?_, ?_, ?_, fun _ => ⟨notFlushed, notFlushing⟩⟩
  · rw [sent]
    exact ok.waited
  · intro flushed
    rw [notFlushed] at flushed
    cases flushed
  · intro n flushing
    rw [notFlushing] at flushing
    cases flushing

/-- The hardware writes back a line of either ring. -/
theorem SysOk.writeBack {way : Way} {e : End} {i : Nat} {l : Option Nat} (ok : SysOk σ) (next : σ.step (.writeBack way e i l) = some σ') :
    SysOk σ' := by
  cases way with
  | request =>
    cases next
    refine ok.onReq (ok.req.writeBack e i l) ?_ ?_ ?_ (writeBack_drops σ.req e i l)
    · cases l <;> exact ok.waited
    · cases l <;> rfl
    · cases l <;> rfl
  | reply =>
    cases next
    refine ok.onRep (ok.rep.writeBack e i l) ?_ ?_
    · cases l <;> exact ok.asked
    · cases l <;> exact Nat.le_refl _

/-- **Every step keeps the invariant.** -/
theorem SysOk.step (ok : SysOk σ) (patient : σ.patient a) (next : σ.step a = some σ') : SysOk σ' := by
  cases a with
  | rpcSend msg => exact ok.rpcSend next
  | rpcSendServer msg => exact ok.rpcSendServer next
  | rpcRecvServer => exact ok.rpcRecvServer next
  | flushes => exact ok.flushes next
  | serverReceives => exact ok.serverReceives patient next
  | writeBack way e i l => exact ok.writeBack next
  | rpcRecv spin =>
    simp only [Sys.step, Option.ite_none_right_eq_some, Option.some.injEq] at next
    obtain ⟨idle, rfl⟩ := next
    exact ok.onRep (ok.rep.beginRecv (Option.isNone_iff_eq_none.mp idle.2) nofun) ok.asked (Nat.le_refl _)
  | sends =>
    simp only [Sys.step, Option.map_eq_some_iff] at next
    obtain ⟨c, step, rfl⟩ := next
    obtain ⟨chan, sent, got, receiving, drops⟩ := ok.req.goSend step
    apply ok.onReq chan ?_ got receiving drops
    rw [sent]
    exact ok.waited
  | receives =>
    simp only [Sys.step, Option.map_eq_some_iff] at next
    obtain ⟨c, step, rfl⟩ := next
    obtain ⟨chan, sent, got⟩ := ok.rep.goRecv patient step
    apply ok.onRep chan ?_ got
    rw [sent]
    exact ok.asked
  | serverSends =>
    simp only [Sys.step, Option.map_eq_some_iff] at next
    obtain ⟨c, step, rfl⟩ := next
    obtain ⟨chan, sent, got, _, _⟩ := ok.rep.goSend step
    apply ok.onRep chan ?_ (Nat.le_of_eq (congrArg List.length got.symm))
    rw [sent]
    exact ok.asked
  | flushMsgq =>
    simp only [Sys.step, Option.ite_none_right_eq_some, Option.some.injEq] at next
    obtain ⟨idle, rfl⟩ := next
    refine ⟨ok.req, ok.rep, ok.asked, ok.waited, ok.fresh, ?_, fun busy => absurd (Option.isNone_iff_eq_none.mp idle.1) busy⟩
    intro n here
    cases here
    exact fun _ _ _ before => absurd before (Nat.not_lt_zero _)

/-- So it holds in every run. -/
theorem Run.sysOk (run : Run Sys.patient σ) : SysOk σ := by
  induction run with
  | init size bytes => exact SysOk.init size bytes
  | step _ patient next ok => exact ok.step patient next

/-- **Remote calls on caches that are not coherent**: as long as no receiver gives a header back before the sender's call has
returned, the requests and the replies that are received are the first of those that were sent. -/
theorem calls_in_order (run : Run Sys.patient σ) : σ.req.got <+: σ.req.sent ∧ σ.rep.got <+: σ.rep.sent :=
  ⟨run.sysOk.req.got_prefix, run.sysOk.rep.got_prefix⟩

/-- A list of steps that goes through is a run. -/
theorem run_foldlM {meets : Sys → Act → Prop} [∀ σ a, Decidable (meets σ a)] (acts : List Act) (run : Run meets σ)
    (steps : acts.foldlM (fun σ a => if meets σ a then σ.step a else none) σ = some σ') : Run meets σ' := by
  induction acts generalizing σ with
  | nil =>
    cases steps
    exact run
  | cons a acts ih =>
    rw [List.foldlM_cons, Option.bind_eq_bind, Option.bind_eq_some_iff] at steps
    obtain ⟨σ₁, step, rest⟩ := steps
    rw [Option.ite_none_right_eq_some] at step
    exact ih (run.step step.1 step.2) rest

end

/-- The server's turn: it looks at the ring, replies to a request of one byte, and flushes the rings. -/
def serves (reply : Msg) : List Act :=
  [.rpcRecvServer] ++ List.replicate 7 .serverReceives ++ [.flushMsgq] ++ List.replicate 41 .flushes ++
    [.rpcSendServer reply] ++ List.replicate 7 .serverSends

/-- A call with a request and a reply of one byte. -/
def calls (msg reply : Msg) : List Act :=
  [.rpcSend msg] ++ List.replicate 7 .sends ++ serves reply ++ [.rpcRecv true] ++ List.replicate 10 .receives

/-- A client and a server that have sent nothing. -/
def noRings : Sys := Sys.init (fun _ _ => 0) fun _ _ _ _ => 0

/-- Two calls, each with its reply. -/
theorem calls_in_order_twice : ∃ σ, Run Sys.patient σ ∧ σ.req.got = [[1], [2]] ∧ σ.rep.got = [[3], [4]] ∧
    σ.req.got <+: σ.req.sent ∧ σ.rep.got <+: σ.rep.sent := by
  have run : ((calls [1] [3] ++ calls [2] [4]).foldlM (fun σ a => if Sys.patient σ a then σ.step a else none) noRings).map
      (fun σ => (σ.req.got, σ.rep.got)) = some ([[1], [2]], [[3], [4]]) := by
    decide +kernel
  obtain ⟨σ, reached, seen⟩ := Option.map_eq_some_iff.mp run
  simp only [Prod.mk.injEq] at seen
  have reach : Run Sys.patient σ := run_foldlM _ (.init _ _) reached
  exact ⟨σ, reach, seen.1, seen.2, calls_in_order reach⟩

/-- A call where the hardware writes the header back after the store to `meta.size`, with `meta.use` from the last time around
the ring, and the server replies before the client's `rpc_send` has gone on. -/
def hastyCall (msg reply : Msg) : List Act :=
  [.rpcSend msg] ++ List.replicate 5 .sends ++ [.writeBack .request .snd 0 none] ++ serves reply ++ List.replicate 2 .sends ++
    [.rpcRecv true] ++ List.replicate 10 .receives

set_option maxRecDepth 100000 in
/-- Of sixteen requests the server receives the ninth again, after the last. -/
theorem header_given_back_early : ∃ σ, Run (fun _ _ => True) σ ∧ σ.req.sent.length = 16 ∧ σ.req.got = σ.req.sent ++ [[9]] ∧
    ¬ (σ.req.got <+: σ.req.sent ∧ σ.rep.got <+: σ.rep.sent) := by
  let acts : List Act := calls [1] [0] ++ calls [2] [0] ++ calls [3] [0] ++ calls [4] [0] ++ calls [5] [0] ++ calls [6] [0] ++
    calls [7] [0] ++ calls [8] [0] ++ hastyCall [9] [0] ++ calls [10] [0] ++ calls [11] [0] ++ calls [12] [0] ++ calls [13] [0] ++
    calls [14] [0] ++ calls [15] [0] ++ calls [16] [0] ++ [.rpcRecvServer] ++ List.replicate 7 .serverReceives
  have run : (acts.foldlM (fun σ a => if True then σ.step a else none) noRings).map
      (fun σ => (σ.req.sent.length, decide (σ.req.got = σ.req.sent ++ [[9]]))) = some (16, true) := by
    decide +kernel
  obtain ⟨σ, reached, seen⟩ := Option.map_eq_some_iff.mp run
  simp only [Prod.mk.injEq, decide_eq_true_eq] at seen
  obtain ⟨sent, got⟩ := seen
  refine ⟨σ, run_foldlM acts (.init _ _) reached, sent, got, fun both => ?_⟩
  have length := both.1.length_le
  rw [got, List.length_append, List.length_singleton] at length
  omega

end BiProject.RpcCache
