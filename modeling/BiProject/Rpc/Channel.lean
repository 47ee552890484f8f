import BiProject.Lib.Ring
import BiProject.Rpc.MsgQueue

/-!
# One channel

A ring with its two ends, and what was sent and returned on it. The position of each end is the number of
messages it is done with, modulo `MSG_NUM`, so the two stay in step without looking at each other: as long as
at most `MSG_NUM` messages are unread, a slot is used by one of them at a time.
-/

namespace BiProject.Rpc
set_option autoImplicit false
open BiProject.Lib.Ring

structure Chan where
  slot : Nat → MsgNode
  head : Nat
  tail : Nat
  sent : List Msg
  got : List Msg
  sending : Option Sending
  receiving : Option Receiving

/-- How many messages are in the ring, or have been: the one in progress counts once its slot is in use. -/
def Chan.published (c : Chan) : Nat :=
  match c.sending with
  | none => c.sent.length
  | some s => if s.pc = .pos then c.sent.length else c.sent.length - 1

/-- The bytes of a message up to `k` are in a slot. -/
def MsgNode.Copied (node : MsgNode) (msg : Msg) (k : Nat) : Prop := ∀ (j : Nat) (b : UInt8), j < k → msg[j]? = some b → node.data j = b

/-- A slot holds a message for the receiver. -/
structure MsgNode.Full (node : MsgNode) (msg : Msg) : Prop where
  use : node.use ≠ 0
  size : node.size = msg.length
  data : node.Copied msg msg.length

/-- What a sender has done to its slot. -/
def Sending.Progress (s : Sending) (node : MsgNode) : Prop :=
  match s.pc with
  | .copy k => node.use = 0 ∧ node.Copied s.msg k
  | .size => node.use = 0 ∧ node.Copied s.msg s.msg.length
  | .use => node.use = 0 ∧ node.Copied s.msg s.msg.length ∧ node.size = s.msg.length
  | .pos => True

/-- What a receiver knows, once it has found the message `m` in its slot. -/
def Receiving.Progress (r : Receiving) (node : MsgNode) (m : Msg) : Prop :=
  match r.pc with
  | .use => True
  | .size => node.Full m
  | .copy => node.Full m ∧ r.retSz = m.length ∧ r.buf <+: m
  | .clearSize => node.Full m ∧ r.retSz = m.length ∧ r.buf = m
  | .clearUse => r.retSz = m.length ∧ r.buf = m
  | .pos => node.use = 0 ∧ r.retSz = m.length ∧ r.buf = m

/-- The receiver has begun to clear its slot. -/
def Chan.clearing (c : Chan) : Prop := ∃ r, c.receiving = some r ∧ (r.pc = .clearUse ∨ r.pc = .pos)

/-- The sender's end: its position, or the message in progress and its slot. -/
def Chan.SenderOk (c : Chan) : Prop :=
  match c.sending with
  | none => c.head % msgNum = c.sent.length % msgNum
  | some s => ∃ front, c.sent = front ++ [s.msg] ∧ s.cur = front.length % msgNum ∧ s.Progress (c.slot s.cur)

/-- The receiver's end: its slot is that of the next message, which is there if it has been found. -/
def Chan.ReceiverOk (c : Chan) : Prop :=
  ∀ r, c.receiving = some r → r.cur = c.got.length % msgNum ∧
    (r.pc ≠ .use → c.got.length < c.published ∧ ∀ m, c.sent[c.got.length]? = some m → r.Progress (c.slot r.cur) m)

/-- **The invariant of a channel**. -/
structure ChanOk (c : Chan) : Prop where
  sizes : ∀ m ∈ c.sent, 1 ≤ m.length ∧ m.length < maxMsgSize
  got : c.got <+: c.sent
  behind : c.got.length ≤ c.published
  ahead : c.sent.length ≤ c.got.length + msgNum
  sender : c.SenderOk
  tail : c.tail % msgNum = c.got.length % msgNum
  receiver : c.ReceiverOk
  full : ∀ n m, c.got.length ≤ n → n < c.published → ¬ (n = c.got.length ∧ c.clearing) → c.sent[n]? = some m →
    (c.slot (n % msgNum)).Full m
  free : ∀ n, c.sent.length ≤ n → n < c.got.length + msgNum → (c.slot (n % msgNum)).use = 0

section
variable {c : Chan}

theorem slot_ne {i k : Nat} (before : i < k) (near : k < i + msgNum) : i % msgNum ≠ k % msgNum := by
  intro same
  have equal := absolute_inj before.le near same
  omega

theorem Chan.published_le (c : Chan) : c.published ≤ c.sent.length := by
  unfold Chan.published
  split
  · exact le_rfl
  · split_ifs <;> omega

/-- The next message to receive, once it is there. -/
theorem Chan.next_message (c : Chan) (there : c.got.length < c.published) : ∃ m, c.sent[c.got.length]? = some m := by
  have inside : c.got.length < c.sent.length := by
    have := c.published_le
    omega
  exact ⟨_, List.getElem?_eq_getElem inside⟩

/-! ## Calls begin -/

theorem ChanOk.send_begin (ok : ChanOk c) {msg : Msg} (idle : c.sending = none) (nonempty : 1 ≤ msg.length) (size : msg.length < maxMsgSize)
    (room : c.sent.length < c.got.length + msgNum) :
    ChanOk { c with sending := some (rpcSendBegin c.head msg), sent := c.sent ++ [msg] } := by
  have published : Chan.published { c with sending := some (rpcSendBegin c.head msg), sent := c.sent ++ [msg] } = c.published := by
    simp [Chan.published, rpcSendBegin, idle]
  have all : c.published = c.sent.length := by simp [Chan.published, idle]
  have position : c.head % msgNum = c.sent.length % msgNum := by
    have sender := ok.sender
    rwa [Chan.SenderOk, idle] at sender
  have early : ∀ {n : Nat} {m : Msg}, n < c.published → (c.sent ++ [msg])[n]? = some m → c.sent[n]? = some m := by
    intro n m below entry
    rwa [List.getElem?_append_left (by omega)] at entry
  refine ⟨?_, ok.got.trans (List.prefix_append _ _), ?_, ?_, ?_, ok.tail, ?_, ?_, ?_⟩
  · intro m member
    rcases List.mem_append.mp member with old | new
    · exact ok.sizes m old
    · rw [List.mem_singleton.mp new]
      exact ⟨nonempty, size⟩
  · rw [published]
    exact ok.behind
  · simp only [List.length_append, List.length_singleton]
    omega
  · refine ⟨c.sent, rfl, position, ?_, fun j b below => absurd below (Nat.not_lt_zero j)⟩
    simp only [rpcSendBegin, position]
    exact ok.free _ le_rfl room
  · intro r active
    obtain ⟨cur, progress⟩ := ok.receiver r active
    refine ⟨cur, fun found => ?_⟩
    obtain ⟨there, knows⟩ := progress found
    rw [published]
    exact ⟨there, fun m entry => knows m (early there entry)⟩
  · intro n m low high notClearing entry
    rw [published] at high
    exact ok.full n m low high notClearing (early high entry)
  · intro n low high
    refine ok.free n ?_ high
    simp only [List.length_append, List.length_singleton] at low
    omega

theorem ChanOk.recv_begin (ok : ChanOk c) (idle : c.receiving = none) (spin : Bool) :
    ChanOk { c with receiving := some (rpcRecvBegin c.tail spin) } := by
  refine ⟨ok.sizes, ok.got, ok.behind, ok.ahead, ok.sender, ok.tail, ?_, ?_, ok.free⟩
  · intro r active
    obtain rfl := Option.some.inj active
    exact ⟨ok.tail, fun found => absurd rfl found⟩
  · intro n m low high _ entry
    refine ok.full n m low high ?_ entry
    rintro ⟨_, r, active, _⟩
    rw [idle] at active
    cases active

/-! ## The sender -/

/-- While its message is not published, the sender's slot is none that holds another or is free. -/
theorem ChanOk.sender_apart (ok : ChanOk c) {s : Sending} (active : c.sending = some s) (early : s.pc ≠ .pos) :
    (∀ n, c.got.length ≤ n → n < c.published → n % msgNum ≠ s.cur) ∧
      ∀ n, c.sent.length ≤ n → n < c.got.length + msgNum → n % msgNum ≠ s.cur := by
  have sender := ok.sender
  rw [Chan.SenderOk, active] at sender
  obtain ⟨front, sent, cur, _⟩ := sender
  have published : c.published = front.length := by simp [Chan.published, active, early, sent]
  have length : c.sent.length = front.length + 1 := by simp [sent]
  have ahead := ok.ahead
  have behind := ok.behind
  rw [cur]
  refine ⟨fun n low high => slot_ne (by omega) (by omega), fun n low high => (slot_ne (by omega) (by omega)).symm⟩

/-- A store of the sender to its slot, before its message is published. -/
theorem ChanOk.fill (ok : ChanOk c) {s s' : Sending} {slot : MsgNode} (active : c.sending = some s) (early : s.pc ≠ .pos)
    (early' : s'.pc ≠ .pos) (same : s'.msg = s.msg ∧ s'.cur = s.cur) (progress : s'.Progress slot) :
    ChanOk { c with slot := Function.update c.slot s.cur slot, sending := some s' } := by
  obtain ⟨fullApart, freeApart⟩ := ok.sender_apart active early
  have published : Chan.published { c with slot := Function.update c.slot s.cur slot, sending := some s' } = c.published := by
    simp [Chan.published, active, early, early']
  have sender := ok.sender
  rw [Chan.SenderOk, active] at sender
  obtain ⟨front, sent, cur, _⟩ := sender
  refine ⟨ok.sizes, ok.got, ?_, ok.ahead, ?_, ok.tail, fun r receives => ?_, fun n m low high notClearing entry => ?_, fun n low high => ?_⟩
  · rw [published]
    exact ok.behind
  · refine ⟨front, by rw [same.1]; exact sent, by rw [same.2]; exact cur, ?_⟩
    simp only [same.2, Function.update_self]
    exact progress
  · obtain ⟨place, found⟩ := ok.receiver r receives
    refine ⟨place, fun later => ?_⟩
    rw [published]
    obtain ⟨there, knows⟩ := found later
    have elsewhere : r.cur ≠ s.cur := by
      rw [place]
      exact fullApart _ le_rfl there
    simp only [Function.update_of_ne elsewhere]
    exact ⟨there, knows⟩
  · rw [published] at high
    simp only [Function.update_of_ne (fullApart n low high)]
    exact ok.full n m low high notClearing entry
  · simp only [Function.update_of_ne (freeApart n low high)]
    exact ok.free n low high

/-- The store to `meta.use` publishes the message. -/
theorem ChanOk.publish (ok : ChanOk c) {s : Sending} (active : c.sending = some s) (here : s.pc = .use) :
    ChanOk { c with
      slot := Function.update c.slot s.cur { c.slot s.cur with use := 1 }, sending := some { s with pc := .pos } } := by
  have early : s.pc ≠ .pos := by simp [here]
  obtain ⟨fullApart, freeApart⟩ := ok.sender_apart active early
  have sender := ok.sender
  rw [Chan.SenderOk, active] at sender
  obtain ⟨front, sent, cur, progress⟩ := sender
  simp only [Sending.Progress, here] at progress
  have before : c.published = front.length := by simp [Chan.published, active, early, sent]
  have length : c.sent.length = front.length + 1 := by simp [sent]
  have behind := ok.behind
  refine ⟨ok.sizes, ok.got, ?_, ok.ahead, ?_, ok.tail, fun r receives => ?_, fun n m low high notClearing entry => ?_, fun n low high => ?_⟩
  · simp only [Chan.published, if_true]
    omega
  · exact ⟨front, sent, cur, trivial⟩
  · obtain ⟨place, found⟩ := ok.receiver r receives
    refine ⟨place, fun later => ?_⟩
    obtain ⟨there, knows⟩ := found later
    have elsewhere : r.cur ≠ s.cur := by
      rw [place]
      exact fullApart _ le_rfl there
    simp only [Function.update_of_ne elsewhere, Chan.published, if_true]
    exact ⟨by omega, knows⟩
  · simp only [Chan.published, if_true] at high
    by_cases last : n = front.length
    · subst last
      have this : m = s.msg := by simpa [sent] using entry.symm
      simp only [← cur, Function.update_self, this]
      exact ⟨by simp, progress.2.2, progress.2.1⟩
    · simp only [Function.update_of_ne (fullApart n low (by omega))]
      exact ok.full n m low (by omega) notClearing entry
  · simp only [Function.update_of_ne (freeApart n low high)]
    exact ok.free n low high

/-- The sender advances its position and returns. -/
theorem ChanOk.send_end (ok : ChanOk c) {s : Sending} (active : c.sending = some s) (here : s.pc = .pos) :
    ChanOk { c with head := s.cur + 1, sending := none } := by
  have sender := ok.sender
  rw [Chan.SenderOk, active] at sender
  obtain ⟨front, sent, cur, _⟩ := sender
  have published : Chan.published { c with head := s.cur + 1, sending := none } = c.published := by
    simp [Chan.published, active, here]
  refine ⟨ok.sizes, ok.got, ?_, ok.ahead, ?_, ok.tail, fun r receives => ?_, fun n m low high => ?_, ok.free⟩
  · rw [published]
    exact ok.behind
  · simp only [Chan.SenderOk, sent, cur, List.length_append, List.length_singleton]
    rw [Nat.mod_add_mod]
  · obtain ⟨place, found⟩ := ok.receiver r receives
    rw [published]
    exact ⟨place, found⟩
  · rw [published] at high
    exact ok.full n m low high

/-- **Every step of `rpc_send_ext`** keeps the invariant. -/
theorem ChanOk.send_step (ok : ChanOk c) {s : Sending} {s' : Option Sending} {slot : MsgNode} {pos : Nat} (active : c.sending = some s)
    (run : rpcSendExt (c.slot s.cur) c.head s = (slot, pos, s')) :
    ChanOk { c with slot := Function.update c.slot s.cur slot, head := pos, sending := s' } := by
  have sender := ok.sender
  rw [Chan.SenderOk, active] at sender
  obtain ⟨front, sent, cur, progress⟩ := sender
  unfold rpcSendExt at run
  cases here : s.pc with
  | copy k =>
    simp only [here] at run
    simp only [Sending.Progress, here] at progress
    split_ifs at run with more
    · obtain ⟨rfl, rfl, rfl⟩ := by simpa using run
      refine ok.fill active (by simp [here]) (by simp) ⟨rfl, rfl⟩ ⟨progress.1, fun j b below entry => ?_⟩
      rcases Nat.lt_succ_iff_lt_or_eq.mp below with old | rfl
      · simp only [Function.update_of_ne old.ne]
        exact progress.2 j b old entry
      · simp only [Function.update_self]
        simpa [List.getElem?_eq_getElem more] using entry
    · obtain ⟨rfl, rfl, rfl⟩ := by simpa using run
      refine ok.fill active (by simp [here]) (by simp) ⟨rfl, rfl⟩ ⟨progress.1, fun j b below entry => ?_⟩
      exact progress.2 j b (lt_of_lt_of_le below (Nat.le_of_not_lt more)) entry
  | size =>
    simp only [here] at run
    simp only [Sending.Progress, here] at progress
    obtain ⟨rfl, rfl, rfl⟩ := by simpa using run
    exact ok.fill active (by simp [here]) (by simp) ⟨rfl, rfl⟩ ⟨progress.1, progress.2, rfl⟩
  | use =>
    simp only [here] at run
    obtain ⟨rfl, rfl, rfl⟩ := by simpa using run
    exact ok.publish active here
  | pos =>
    simp only [here] at run
    obtain ⟨rfl, rfl, rfl⟩ := by simpa using run
    rw [Function.update_eq_self]
    exact ok.send_end active here

/-! ## The receiver -/

/-- A step of the receiver that leaves its slot in use, and keeps what it knows. -/
theorem ChanOk.look (ok : ChanOk c) {r r' : Receiving} (active : c.receiving = some r) (same : r'.cur = r.cur)
    (found : r'.pc ≠ .use → c.got.length < c.published)
    (knows : ∀ m, c.sent[c.got.length]? = some m → c.got.length < c.published → (r.pc ≠ .use → r.Progress (c.slot r.cur) m) →
      (c.slot r.cur).Full m → r'.Progress (c.slot r.cur) m) (before : ¬ (r.pc = .clearUse ∨ r.pc = .pos)) :
    ChanOk { c with receiving := some r' } := by
  obtain ⟨place, progress⟩ := ok.receiver r active
  have notClearing : ¬ c.clearing := by
    rintro ⟨r₁, active₁, clearing⟩
    obtain rfl := Option.some.inj (active.symm.trans active₁)
    exact before clearing
  refine ⟨ok.sizes, ok.got, ok.behind, ok.ahead, ok.sender, ok.tail, fun r₁ receives => ?_, fun n m low high _ entry => ?_, ok.free⟩
  · obtain rfl := Option.some.inj receives
    refine ⟨same.trans place, fun later => ⟨found later, fun m entry => ?_⟩⟩
    have there := found later
    rw [same]
    refine knows m entry there (fun first => (progress first).2 m entry) ?_
    rw [place]
    exact ok.full _ m le_rfl there (fun both => notClearing both.2) entry
  · exact ok.full n m low high (fun both => notClearing both.2) entry

/-- The slot of the receiver, once it has found its message, is not the sender's and not free. -/
theorem ChanOk.receiver_apart (ok : ChanOk c) (there : c.got.length < c.published) :
    (∀ n, c.got.length < n → n < c.got.length + msgNum → n % msgNum ≠ c.got.length % msgNum) ∧
      ∀ s, c.sending = some s → s.pc ≠ .pos → s.cur ≠ c.got.length % msgNum := by
  refine ⟨fun n low high => (slot_ne low high).symm, fun s active early => ?_⟩
  exact ((ok.sender_apart active early).1 _ le_rfl there).symm

/-- A store of the receiver to its slot while it clears it. -/
theorem ChanOk.clear (ok : ChanOk c) {r r' : Receiving} {slot : MsgNode} (active : c.receiving = some r) (same : r'.cur = r.cur)
    (found : r.pc ≠ .use) (clears : r'.pc = .clearUse ∨ r'.pc = .pos)
    (knows : ∀ m, r.Progress (c.slot r.cur) m → r'.Progress slot m) :
    ChanOk { c with slot := Function.update c.slot r.cur slot, receiving := some r' } := by
  obtain ⟨place, progress⟩ := ok.receiver r active
  obtain ⟨there, known⟩ := progress found
  obtain ⟨others, sender⟩ := ok.receiver_apart there
  have published := c.published_le
  have ahead := ok.ahead
  refine ⟨ok.sizes, ok.got, ok.behind, ok.ahead, ?_, ok.tail, fun r₁ receives => ?_, fun n m low high notClearing entry => ?_,
    fun n low high => ?_⟩
  · have old := ok.sender
    unfold Chan.SenderOk at old ⊢
    cases sends : c.sending with
    | none => simpa only [sends] using old
    | some s =>
      simp only [sends] at old ⊢
      obtain ⟨front, sent, cur, progress⟩ := old
      refine ⟨front, sent, cur, ?_⟩
      by_cases last : s.pc = .pos
      · simp only [Sending.Progress, last]
      · rw [place, Function.update_of_ne (sender s sends last)]
        exact progress
  · obtain rfl := Option.some.inj receives
    refine ⟨same.trans place, fun _ => ⟨there, fun m entry => ?_⟩⟩
    simp only [same, Function.update_self]
    exact knows m (known m entry)
  · have notNext : n ≠ c.got.length := by
      rintro rfl
      exact notClearing ⟨rfl, r', rfl, clears⟩
    have least : c.got.length ≤ n := low
    have most : n < c.published := high
    simp only [place, Function.update_of_ne (others n (by omega) (by omega))]
    exact ok.full n m low high (fun both => notNext both.1) entry
  · have least : c.sent.length ≤ n := low
    simp only [place, Function.update_of_ne (others n (by omega) high)]
    exact ok.free n low high

/-- The receiver advances its position and returns the message. -/
theorem ChanOk.recv_end (ok : ChanOk c) {r : Receiving} (active : c.receiving = some r) (here : r.pc = .pos) :
    r.buf ≠ [] ∧ r.retSz ≠ 0 ∧ ChanOk { c with tail := r.cur + 1, got := c.got ++ [r.buf], receiving := none } := by
  obtain ⟨place, progress⟩ := ok.receiver r active
  obtain ⟨there, known⟩ := progress (by simp [here])
  obtain ⟨m, entry⟩ := c.next_message there
  have knows := known m entry
  simp only [Receiving.Progress, here] at knows
  obtain ⟨cleared, size, rfl⟩ := knows
  have sizes := ok.sizes _ (List.mem_of_getElem? entry)
  have ahead := ok.ahead
  have published : Chan.published { c with tail := r.cur + 1, got := c.got ++ [r.buf], receiving := none } = c.published := rfl
  refine ⟨List.ne_nil_of_length_pos (by omega), by omega, ok.sizes, ?_, ?_, ?_, ok.sender, ?_, ?_, fun n m low high _ => ?_,
    fun n low high => ?_⟩
  · obtain ⟨rest, split⟩ := ok.got
    rw [← split, List.getElem?_append_right le_rfl, Nat.sub_self] at entry
    obtain ⟨tail, rfl⟩ : ∃ tail, rest = r.buf :: tail := by
      cases rest with
      | nil => cases entry
      | cons a tail => exact ⟨tail, by simpa using entry⟩
    exact ⟨tail, by simpa using split⟩
  · rw [published]
    simp only [List.length_append, List.length_singleton]
    omega
  · simp only [List.length_append, List.length_singleton]
    omega
  · simp only [List.length_append, List.length_singleton, place]
    rw [Nat.mod_add_mod]
  · intro r₁ receives
    cases receives
  · simp only [List.length_append, List.length_singleton] at low
    exact ok.full n m (by omega) high (fun both => by omega)
  · simp only [List.length_append, List.length_singleton] at high
    by_cases last : n = c.got.length + msgNum
    · rw [last, Nat.add_mod_right, ← place]
      exact cleared
    · exact ok.free n low (by omega)

/-- A slot that is in use at the receiver's position holds a message. -/
theorem ChanOk.there_of_use (ok : ChanOk c) (used : (c.slot (c.got.length % msgNum)).use ≠ 0) : c.got.length < c.published := by
  by_contra missing
  have behind := ok.behind
  have all : c.got.length = c.published := by omega
  have room : 0 < msgNum := by decide
  unfold Chan.published at all
  cases sends : c.sending with
  | none =>
    simp only [sends] at all
    exact used (ok.free _ all.ge (by omega))
  | some s =>
    simp only [sends] at all
    split_ifs at all with last
    · exact used (ok.free _ all.ge (by omega))
    · -- the sender is still filling the slot
      have sender := ok.sender
      rw [Chan.SenderOk, sends] at sender
      obtain ⟨front, sent, cur, progress⟩ := sender
      have length : c.got.length = front.length := by
        simp only [sent, List.length_append, List.length_singleton] at all
        omega
      rw [length, ← cur] at used
      unfold Sending.Progress at progress
      split at progress
      · exact used progress.1
      · exact used progress.1
      · exact used progress.1
      · next done => exact last done

theorem prefix_snoc {l m : Msg} {b : UInt8} (copied : l <+: m) (entry : m[l.length]? = some b) : l ++ [b] <+: m := by
  obtain ⟨rest, rfl⟩ := copied
  rw [List.getElem?_append_right le_rfl, Nat.sub_self] at entry
  cases rest with
  | nil => cases entry
  | cons x rest =>
    obtain rfl : x = b := by simpa using entry
    exact ⟨rest, by simp⟩

/-- **Every step of `rpc_recv_ext`** keeps the invariant, and what it returns is the next message, or nothing. -/
theorem ChanOk.recv_step (ok : ChanOk c) {r r' : Receiving} {slot : MsgNode} {pos : Nat} (active : c.receiving = some r)
    (run : rpcRecvExt (c.slot r.cur) c.tail r = (slot, pos, .inl r')) :
    ChanOk { c with slot := Function.update c.slot r.cur slot, tail := pos, receiving := some r' } := by
  obtain ⟨place, progress⟩ := ok.receiver r active
  unfold rpcRecvExt at run
  cases here : r.pc with
  | use =>
    simp only [here] at run
    split_ifs at run with unused spins
    · obtain ⟨rfl, rfl, rfl⟩ := by simpa using run
      rwa [Function.update_eq_self, ← active]
    · cases (Prod.mk.inj (Prod.mk.inj run).2).2
    · obtain ⟨rfl, rfl, rfl⟩ := by simpa using run
      rw [Function.update_eq_self]
      -- the slot is in use, so the next message is there
      have there : c.got.length < c.published := ok.there_of_use (by rwa [← place])
      exact ok.look active rfl (fun _ => there) (fun m _ _ _ full => full) (by simp [here])
  | size =>
    simp only [here] at run
    obtain ⟨rfl, rfl, rfl⟩ := by simpa using run
    rw [Function.update_eq_self]
    refine ok.look active rfl (fun _ => (progress (by simp [here])).1) (fun m _ _ _ full => ?_) (by simp [here])
    exact ⟨full, full.size, List.nil_prefix⟩
  | copy =>
    have known : ∀ m, (r.pc ≠ .use → r.Progress (c.slot r.cur) m) → r.retSz = m.length ∧ r.buf <+: m := by
      intro m knows
      have now := knows (by simp [here])
      simp only [Receiving.Progress, here] at now
      exact now.2
    simp only [here] at run
    split_ifs at run with more
    · obtain ⟨rfl, rfl, rfl⟩ := by simpa using run
      rw [Function.update_eq_self]
      refine ok.look active rfl (fun _ => (progress (by simp [here])).1) (fun m _ _ knows full => ?_) (by simp [here])
      obtain ⟨size, copied⟩ := known m knows
      simp only [Receiving.Progress]
      have inside : r.buf.length < m.length := by omega
      refine ⟨full, size, prefix_snoc copied ?_⟩
      rw [full.data _ _ inside (List.getElem?_eq_getElem inside)]
      exact List.getElem?_eq_getElem inside
    · obtain ⟨rfl, rfl, rfl⟩ := by simpa using run
      rw [Function.update_eq_self]
      refine ok.look active rfl (fun _ => (progress (by simp [here])).1) (fun m _ _ knows full => ?_) (by simp [here])
      obtain ⟨size, copied⟩ := known m knows
      exact ⟨full, size, copied.eq_of_length_le (by omega)⟩
  | clearSize =>
    simp only [here] at run
    obtain ⟨rfl, rfl, rfl⟩ := by simpa using run
    refine ok.clear active rfl (by simp [here]) (Or.inl rfl) fun m knows => ?_
    simp only [Receiving.Progress, here] at knows
    exact knows.2
  | clearUse =>
    simp only [here] at run
    obtain ⟨rfl, rfl, rfl⟩ := by simpa using run
    refine ok.clear active rfl (by simp [here]) (Or.inr rfl) fun m knows => ?_
    simp only [Receiving.Progress, here] at knows
    exact ⟨rfl, knows⟩
  | pos =>
    simp only [here] at run
    split_ifs at run with again
    · exact absurd again.1 (ok.recv_end active here).2.1
    · cases (Prod.mk.inj (Prod.mk.inj run).2).2

/-- What a step of `rpc_recv_ext` that returns leaves: nothing new, or the next message. -/
theorem ChanOk.recv_return (ok : ChanOk c) {r : Receiving} {slot : MsgNode} {pos : Nat} {msg : Msg} (active : c.receiving = some r)
    (run : rpcRecvExt (c.slot r.cur) c.tail r = (slot, pos, .inr msg)) :
    ChanOk { c with
      slot := Function.update c.slot r.cur slot, tail := pos, receiving := none, got := c.got ++ if msg = [] then [] else [msg] } := by
  unfold rpcRecvExt at run
  cases here : r.pc with
  | use =>
    simp only [here] at run
    split_ifs at run with unused spins
    · cases (Prod.mk.inj (Prod.mk.inj run).2).2
    · obtain ⟨rfl, rfl, rfl⟩ := by simpa using run
      rw [Function.update_eq_self, if_pos rfl, List.append_nil]
      refine ⟨ok.sizes, ok.got, ok.behind, ok.ahead, ok.sender, ok.tail, ?_, fun n m low high _ entry => ?_, ok.free⟩
      · rintro r₁ ⟨⟩
      · refine ok.full n m low high ?_ entry
        rintro ⟨_, r₁, active₁, clearing⟩
        obtain rfl := Option.some.inj (active.symm.trans active₁)
        simp [here] at clearing
    · cases (Prod.mk.inj (Prod.mk.inj run).2).2
  | size => simp [here] at run
  | copy =>
    simp only [here] at run
    split_ifs at run
    · cases (Prod.mk.inj (Prod.mk.inj run).2).2
    · cases (Prod.mk.inj (Prod.mk.inj run).2).2
  | clearSize => simp [here] at run
  | clearUse => simp [here] at run
  | pos =>
    simp only [here] at run
    obtain ⟨nonempty, size, done⟩ := ok.recv_end active here
    split_ifs at run with again
    · exact absurd again.1 size
    · obtain ⟨rfl, rfl, rfl⟩ := by simpa using run
      rwa [Function.update_eq_self, if_neg nonempty]

end

end BiProject.Rpc
