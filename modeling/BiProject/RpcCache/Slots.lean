import BiProject.RpcCache.Channel

/-!
# A slot and its two caches

A slot is quiet, holds a message that the sender stores and then writes back, or holds one that the receiver has found. It may
find the message before the sender's call returns, since the hardware may write the header back. As long as the receiver's
write-back of the header comes last, the write-backs of the hardware and the flushes of either node change nothing that the
other relies on.
-/

namespace BiProject.RpcCache
set_option autoImplicit false
open BiProject.Lib
open BiProject.Rpc (Msg msgNum maxMsgSize)

theorem rcv_ne : End.rcv ≠ .snd := nofun
theorem snd_ne : End.snd ≠ .rcv := nofun

/-! ## Lines -/

/-- A header without a message, as far as memory and the receiver can tell; the sender may still have an old one. -/
structure HdrQuiet (h : Line End MsgMeta) : Prop where
  mem : h.mem.use = 0
  snd : h.Clean .snd
  rcv : h.Clean .rcv
  seen : ∀ v d, h.copy .rcv = some (v, d) → v.use = 0

/-- A line of data that memory has as the sender does. -/
structure DataQuiet (line : Line End (Nat → UInt8)) : Prop where
  same : line.view .snd = line.mem
  snd : line.Clean .snd
  rcv : line.Clean .rcv

/-- The bytes of a message up to `k` are in lines. -/
def Holds (bytes : Nat → Nat → UInt8) (msg : Msg) (k : Nat) : Prop :=
  ∀ j b, j < k → msg[j]? = some b → bytes (j / cacheLine) (j % cacheLine) = b

/-- The receiver has no line of the data. -/
def Fresh (node : MsgNode) : Prop := ∀ l < dataLines maxMsgSize, (node.data l).copy .rcv = none

/-- Only the receiver's copy of a line has changed, and it has not stored to it. -/
structure RcvOnly {α : Type} (line line' : Line End α) : Prop where
  mem : line'.mem = line.mem
  snd : line'.copy .snd = line.copy .snd
  rcv : line'.Clean .rcv

section
variable {α : Type} {line line' : Line End α} {h h' : Line End MsgMeta}

theorem RcvOnly.load (clean : line.Clean .rcv) : RcvOnly line (line.load .rcv) := by
  refine ⟨line.load_mem .rcv, line.load_other snd_ne, ?_⟩
  obtain ⟨d, copy, same⟩ := line.load_copy .rcv
  rw [same clean] at copy
  exact Line.clean_of_copy copy

theorem RcvOnly.clflush (clean : line.Clean .rcv) : RcvOnly line (line.clflush .rcv) :=
  ⟨Line.clflush_clean clean, line.clflush_other snd_ne, Line.clean_of_none (line.clflush_copy .rcv)⟩

theorem RcvOnly.view (only : RcvOnly line line') : line'.view .snd = line.view .snd := by
  unfold Line.view
  rw [only.snd, only.mem]

theorem RcvOnly.sndClean (only : RcvOnly line line') (clean : line.Clean .snd) : line'.Clean .snd := by
  intro v there
  rw [only.snd] at there
  exact clean v there

theorem DataQuiet.rcvOnly {line line' : Line End (Nat → UInt8)} (quiet : DataQuiet line) (only : RcvOnly line line') : DataQuiet line' :=
  ⟨by rw [only.view, only.mem, quiet.same], only.sndClean quiet.snd, only.rcv⟩

theorem DataQuiet.writeBack {line : Line End (Nat → UInt8)} (quiet : DataQuiet line) (e : End) : line.writeBack e = line := by
  cases e
  · exact Line.writeBack_clean quiet.snd
  · exact Line.writeBack_clean quiet.rcv

theorem HdrQuiet.writeBack (quiet : HdrQuiet h) (e : End) : h.writeBack e = h := by
  cases e
  · exact Line.writeBack_clean quiet.snd
  · exact Line.writeBack_clean quiet.rcv

/-- A header as the receiver sees it after a load or a flush. -/
theorem seen_load (unused : (h.view .rcv).use = 0) : ∀ v d, (h.load .rcv).copy .rcv = some (v, d) → v.use = 0 := by
  intro v d here
  obtain ⟨d', copy, _⟩ := h.load_copy .rcv
  rw [copy] at here
  cases here
  exact unused

theorem seen_clflush : ∀ v d, (h.clflush .rcv).copy .rcv = some (v, d) → v.use = 0 := by
  intro v d here
  rw [h.clflush_copy] at here
  cases here

/-- The hardware writes back what the sender stored: neither node sees a difference. -/
theorem writeBack_view (line : Line End α) (e : End) : (line.writeBack e).view e = line.view e := by
  rcases line.writeBack_cases e with same | ⟨v, here, _, copy⟩
  · rw [same]
  · rw [Line.view_of_copy copy, Line.view_of_copy here]

theorem writeBack_clean (line : Line End α) (e e' : End) (clean : line.Clean e') : (line.writeBack e).Clean e' := by
  by_cases same : e' = e
  · subst same
    rwa [Line.writeBack_clean clean]
  · intro v there
    rw [line.writeBack_other same] at there
    exact clean v there

theorem HdrQuiet.rcvOnly (quiet : HdrQuiet h) (only : RcvOnly h h') (seen : ∀ v d, h'.copy .rcv = some (v, d) → v.use = 0) : HdrQuiet h' :=
  ⟨by rw [only.mem, quiet.mem], only.sndClean quiet.snd, only.rcv, seen⟩

/-- The receiver finds no message in a quiet header. -/
theorem HdrQuiet.view (quiet : HdrQuiet h) : (h.view .rcv).use = 0 := by
  cases here : h.copy .rcv with
  | none => rw [Line.view_of_none here, quiet.mem]
  | some c =>
    rw [Line.view_of_copy here]
    exact quiet.seen c.1 c.2 here

end

/-! ## Slots -/

/-- No message is in a slot. -/
structure Quiet (node : MsgNode) : Prop where
  hdr : HdrQuiet node.hdr
  data : ∀ l, DataQuiet (node.data l)

/-- The sender's part of a header after its store to `meta.size`. -/
inductive SndHdr (msg : Msg) (h : Line End MsgMeta) : Option SendPc → Prop
  | use (v : MsgMeta) (d : Bool) (stored : h.copy .snd = some (v, d)) (length : v.size = msg.length) : SndHdr msg h (some .use)
  | wbHdr (d : Bool) (stored : h.copy .snd = some (⟨msg.length, 1⟩, d)) : SndHdr msg h (some .wbHdr)
  | done (clean : h.Clean .snd) : SndHdr msg h none

/-- The sender's call is this far: it stores the bytes, writes them back, and then stores to the header. The receiver may
still have the header from before. -/
inductive Filling (msg : Msg) (node : MsgNode) : Option SendPc → Prop
  | copy (k : Nat) (quiet : HdrQuiet node.hdr) (short : k ≤ msg.length) (bytes : Holds (fun l => (node.data l).view .snd) msg k)
      (clean : ∀ l, (node.data l).Clean .rcv) (rest : ∀ l, dataLines msg.length ≤ l → DataQuiet (node.data l)) :
      Filling msg node (some (.copy k))
  | wbData (l : Nat) (quiet : HdrQuiet node.hdr) (bytes : Holds (fun l => (node.data l).view .snd) msg msg.length)
      (clean : ∀ l, (node.data l).Clean .rcv) (done : ∀ j < l, DataQuiet (node.data j))
      (rest : ∀ l, dataLines msg.length ≤ l → DataQuiet (node.data l)) : Filling msg node (some (.wbData l))
  | size (quiet : HdrQuiet node.hdr) (data : ∀ l, DataQuiet (node.data l)) (bytes : Holds (fun l => (node.data l).mem) msg msg.length) :
      Filling msg node (some .size)
  | header (pc : Option SendPc) (sender : SndHdr msg node.hdr pc) (mem : node.hdr.mem.use ≠ 0 → node.hdr.mem.size = msg.length)
      (clean : node.hdr.Clean .rcv) (seen : ∀ v d, node.hdr.copy .rcv = some (v, d) → v.use = 0) (data : ∀ l, DataQuiet (node.data l))
      (bytes : Holds (fun l => (node.data l).mem) msg msg.length) : Filling msg node pc

/-- The receiver's call is this far. -/
inductive ReadAt (msg : Msg) (node : MsgNode) (r : Receiving) : Prop
  | size (v : MsgMeta) (d : Bool) (pc : r.pc = .size) (found : node.hdr.copy .rcv = some (v, d)) (length : v.size = msg.length)
      (fresh : r.flush = false → Fresh node)
  | flushData (l : Nat) (pc : r.pc = .flushData l) (retSz : r.retSz = msg.length) (buf : r.buf = [])
      (dropped : ∀ j < l, (node.data j).copy .rcv = none)
  | copy (pc : r.pc = .copy) (retSz : r.retSz = msg.length) (buf : r.buf <+: msg)
      (same : ∀ l < dataLines msg.length, (node.data l).view .rcv = (node.data l).mem)
  | clearSize (pc : r.pc = .clearSize) (retSz : r.retSz = msg.length) (buf : r.buf = msg)
  | clearUse (v : MsgMeta) (d : Bool) (pc : r.pc = .clearUse) (stored : node.hdr.copy .rcv = some (v, d)) (cleared : v.size = 0)
      (retSz : r.retSz = msg.length) (buf : r.buf = msg)
  | wbHdr (d : Bool) (pc : r.pc = .wbHdr) (stored : node.hdr.copy .rcv = some (⟨0, 0⟩, d)) (retSz : r.retSz = msg.length)
      (buf : r.buf = msg)

/-- The receiver has found a message, and the bytes are in memory. -/
structure Reading (msg : Msg) (node : MsgNode) (pc : Option SendPc) (r : Receiving) : Prop where
  sender : SndHdr msg node.hdr pc
  data : ∀ l, DataQuiet (node.data l)
  bytes : Holds (fun l => (node.data l).mem) msg msg.length
  place : ReadAt msg node r

section
variable {node node' : MsgNode} {msg : Msg} {pos pos' : Nat} {s s' : Sending} {r r' : Receiving} {h' : Line End MsgMeta}

theorem dataLines_mono {a b : Nat} (le : a ≤ b) : dataLines a ≤ dataLines b := by
  unfold dataLines
  exact Nat.div_le_div_right (by omega)

theorem line_of_byte {k size : Nat} (inside : k < size) : k / cacheLine < dataLines size := by
  unfold dataLines cacheLine
  omega

theorem ReadAt.congr (place : ReadAt msg node r) (rcv : node'.hdr.copy .rcv = node.hdr.copy .rcv) (same : node'.data = node.data) :
    ReadAt msg node' r := by
  cases place with
  | size v d pc found length fresh =>
    refine .size v d pc (rcv.trans found) length ?_
    unfold Fresh
    rwa [same]
  | flushData l pc retSz buf dropped => exact .flushData l pc retSz buf (by rwa [same])
  | copy pc retSz buf view => exact .copy pc retSz buf (by rwa [same])
  | clearSize pc retSz buf => exact .clearSize pc retSz buf
  | clearUse v d pc stored cleared retSz buf => exact .clearUse v d pc (rcv.trans stored) cleared retSz buf
  | wbHdr d pc stored retSz buf => exact .wbHdr d pc (rcv.trans stored) retSz buf

/-! ## The sender -/

theorem Quiet.begin (quiet : Quiet node) (msg : Msg) : Filling msg node (some (.copy 0)) :=
  .copy 0 quiet.hdr (Nat.zero_le _) (fun _ _ low => absurd low (Nat.not_lt_zero _)) (fun l => (quiet.data l).rcv) fun l _ => quiet.data l

theorem onHdr_hdr (node : MsgNode) (f : Line End MsgMeta → Line End MsgMeta) : (node.onHdr f).hdr = f node.hdr := rfl

theorem onData_self (node : MsgNode) (l : Nat) (f : Line End (Nat → UInt8) → Line End (Nat → UInt8)) :
    (node.onData l f).data l = f (node.data l) := Function.update_self ..

theorem onData_other (node : MsgNode) {l j : Nat} (f : Line End (Nat → UInt8) → Line End (Nat → UInt8)) (other : j ≠ l) :
    (node.onData l f).data j = node.data j := Function.update_of_ne other ..

theorem store_byte {k : Nat} {b : UInt8} (bytes : Holds (fun l => (node.data l).view .snd) msg k) (here : msg[k]? = some b) :
    Holds (fun l => ((node.onData (k / cacheLine) fun line => line.store .snd fun v => Function.update v (k % cacheLine) b).data l).view .snd)
      msg (k + 1) := by
  intro j c below there
  by_cases line : j / cacheLine = k / cacheLine
  · change ((node.onData _ _).data (j / cacheLine)).view .snd _ = c
    rw [line, onData_self, Line.view_of_copy (Line.store_copy ..)]
    by_cases place : j % cacheLine = k % cacheLine
    · have same : j = k := by
        unfold cacheLine at line place
        omega
      subst same
      rw [Function.update_self]
      exact Option.some.inj (here.symm.trans there)
    · have before : j < k := by
        rcases Nat.lt_succ_iff_lt_or_eq.mp below with before | rfl
        · exact before
        · exact absurd rfl place
      rw [Function.update_of_ne place, ← line]
      exact bytes j c before there
  · have before : j < k := by
      rcases Nat.lt_succ_iff_lt_or_eq.mp below with before | rfl
      · exact before
      · exact absurd rfl line
    change ((node.onData _ _).data (j / cacheLine)).view .snd _ = c
    rw [onData_other node _ line]
    exact bytes j c before there

theorem clwb_quiet {line : Line End (Nat → UInt8)} (clean : line.Clean .rcv) :
    DataQuiet (line.clwb .snd) ∧ (line.clwb .snd).view .snd = line.view .snd := by
  cases here : line.copy .snd with
  | none =>
    rw [Line.clwb_none here]
    exact ⟨⟨Line.view_of_none here, Line.clean_of_none here, clean⟩, rfl⟩
  | some c =>
    obtain ⟨v, d⟩ := c
    have after := Line.clwb_copy here
    have view := Line.view_of_copy after
    refine ⟨⟨?_, Line.clean_of_copy after, ?_⟩, ?_⟩
    · rw [view, Line.clwb_mem, Line.view_of_copy here]
    · intro w there
      rw [line.clwb_other rcv_ne] at there
      exact clean w there
    · rw [view, Line.view_of_copy here]

/-- The call goes on with its message and its slot, and moves the position on where it returns. -/
theorem send_keeps {out : Option Sending} (run : rpcSendExt node pos s = (node', pos', out)) :
    (∀ s', out = some s' → s'.msg = s.msg ∧ s'.cur = s.cur ∧ pos' = pos) ∧ (out = none → pos' = s.cur + 1) := by
  unfold rpcSendExt at run
  split at run
  · split at run <;> cases run <;> simp
  · split at run <;> cases run <;> simp
  · cases run
    simp
  · cases run
    simp
  · cases run
    simp

/-- **A step of the sender at the header** is to its own copy, and what it writes back has the size of the message. -/
theorem SndHdr.step {out : Option Sending} (sender : SndHdr s.msg node.hdr (some s.pc)) (run : rpcSendExt node pos s = (node', pos', out)) :
    node'.data = node.data ∧ node'.hdr.copy .rcv = node.hdr.copy .rcv ∧
      (node'.hdr.mem = node.hdr.mem ∨ node'.hdr.mem.size = s.msg.length) ∧ SndHdr s.msg node'.hdr (out.map Sending.pc) := by
  generalize here : some s.pc = pc at sender
  cases sender with
  | use v d stored length =>
    simp only [rpcSendExt, Option.some.inj here, Prod.mk.injEq] at run
    obtain ⟨rfl, rfl, rfl⟩ := run
    refine ⟨rfl, ?_, Or.inl rfl, .wbHdr true ?_⟩
    · rw [onHdr_hdr, Line.store_other _ _ rcv_ne]
    · rw [onHdr_hdr, Line.store_copy, Line.view_of_copy stored, length]
  | wbHdr d stored =>
    simp only [rpcSendExt, Option.some.inj here, Prod.mk.injEq] at run
    obtain ⟨rfl, rfl, rfl⟩ := run
    refine ⟨rfl, Line.clwb_other _ rcv_ne, Or.inr ?_, .done (Line.clean_of_copy (Line.clwb_copy stored))⟩
    rw [onHdr_hdr, Line.clwb_mem, Line.view_of_copy stored]
  | done => cases here

/-- One byte is stored. -/
theorem Filling.store {k : Nat} {b : UInt8} (quiet : HdrQuiet node.hdr) (bytes : Holds (fun l => (node.data l).view .snd) msg k)
    (clean : ∀ l, (node.data l).Clean .rcv) (rest : ∀ l, dataLines msg.length ≤ l → DataQuiet (node.data l)) (byte : msg[k]? = some b) :
    Filling msg (node.onData (k / cacheLine) fun line => line.store .snd fun bytes => Function.update bytes (k % cacheLine) b)
      (some (.copy (k + 1))) := by
  have inside : k < msg.length := (List.getElem?_eq_some_iff.mp byte).1
  refine .copy (k + 1) quiet inside (store_byte bytes byte) ?_ ?_
  · intro l
    by_cases line : l = k / cacheLine
    · subst line
      rw [onData_self]
      intro v there
      rw [Line.store_other _ _ rcv_ne] at there
      exact clean _ v there
    · rw [onData_other node _ line]
      exact clean l
  · intro l beyond
    have line : l ≠ k / cacheLine := by
      have low := line_of_byte inside
      omega
    rw [onData_other node _ line]
    exact rest l beyond

/-- One line is written back. -/
theorem Filling.wb {l : Nat} (quiet : HdrQuiet node.hdr) (bytes : Holds (fun l => (node.data l).view .snd) msg msg.length)
    (clean : ∀ l, (node.data l).Clean .rcv) (done : ∀ j < l, DataQuiet (node.data j))
    (rest : ∀ l, dataLines msg.length ≤ l → DataQuiet (node.data l)) (more : l < dataLines msg.length) :
    Filling msg (node.onData l fun line => line.clwb .snd) (some (.wbData (l + 1))) := by
  obtain ⟨quietLine, view⟩ := clwb_quiet (clean l)
  refine .wbData (l + 1) quiet ?_ ?_ ?_ ?_
  · intro j b low there
    change ((node.onData l _).data (j / cacheLine)).view .snd _ = b
    by_cases line : j / cacheLine = l
    · rw [line, onData_self, view, ← line]
      exact bytes j b low there
    · rw [onData_other node _ line]
      exact bytes j b low there
  · intro j
    by_cases line : j = l
    · subst line
      rw [onData_self]
      exact quietLine.rcv
    · rw [onData_other node _ line]
      exact clean j
  · intro j low
    by_cases line : j = l
    · subst line
      rw [onData_self]
      exact quietLine
    · rw [onData_other node _ line]
      exact done j (by omega)
  · intro j beyond
    rw [onData_other node _ (by omega)]
    exact rest j beyond

/-- All lines are written back: memory has the bytes. -/
theorem Filling.written {l : Nat} (quiet : HdrQuiet node.hdr) (bytes : Holds (fun l => (node.data l).view .snd) msg msg.length)
    (done : ∀ j < l, DataQuiet (node.data j)) (rest : ∀ l, dataLines msg.length ≤ l → DataQuiet (node.data l))
    (last : ¬ l < dataLines msg.length) : Filling msg node (some .size) := by
  have all (j : Nat) : DataQuiet (node.data j) := by
    by_cases low : j < l
    · exact done j low
    · exact rest j (by omega)
  refine .size quiet all ?_
  intro j b low there
  change (node.data (j / cacheLine)).mem _ = b
  rw [← (all (j / cacheLine)).same]
  exact bytes j b low there

/-- The size is stored. The header may still say that it is in use, from the last time around the ring. -/
theorem Filling.sized (quiet : HdrQuiet node.hdr) (data : ∀ l, DataQuiet (node.data l))
    (bytes : Holds (fun l => (node.data l).mem) msg msg.length) :
    Filling msg (node.onHdr fun line => line.store .snd fun h => { h with size := msg.length }) (some .use) := by
  have stored : (node.onHdr fun line => line.store .snd fun h => { h with size := msg.length }).hdr.copy .snd =
      some ({ node.hdr.view .snd with size := msg.length }, true) := by
    rw [onHdr_hdr, Line.store_copy]
  refine .header _ (.use _ true stored rfl) (fun used => absurd quiet.mem used) ?_ ?_ data bytes
  · intro v there
    rw [onHdr_hdr, Line.store_other _ _ rcv_ne] at there
    exact quiet.rcv v there
  · intro v d there
    rw [onHdr_hdr, Line.store_other _ _ rcv_ne] at there
    exact quiet.seen v d there

/-- **A step of the sender.** -/
theorem Filling.step {out : Option Sending} (filling : Filling s.msg node (some s.pc)) (run : rpcSendExt node pos s = (node', pos', out)) :
    Filling s.msg node' (out.map Sending.pc) := by
  generalize here : some s.pc = pc at filling
  cases filling with
  | copy k quiet short bytes clean rest =>
    have here : s.pc = .copy k := Option.some.inj here
    cases byte : s.msg[k]? with
    | some b =>
      simp only [rpcSendExt, here, byte, Prod.mk.injEq] at run
      obtain ⟨rfl, rfl, rfl⟩ := run
      exact .store quiet bytes clean rest byte
    | none =>
      simp only [rpcSendExt, here, byte, Prod.mk.injEq] at run
      obtain ⟨rfl, rfl, rfl⟩ := run
      have all : k = s.msg.length := Nat.le_antisymm short (List.getElem?_eq_none_iff.mp byte)
      subst all
      exact .wbData 0 quiet bytes clean (fun j low => absurd low (Nat.not_lt_zero j)) rest
  | wbData l quiet bytes clean done rest =>
    have here : s.pc = .wbData l := Option.some.inj here
    by_cases more : l < dataLines s.msg.length
    · simp only [rpcSendExt, here, more, if_true, Prod.mk.injEq] at run
      obtain ⟨rfl, rfl, rfl⟩ := run
      exact .wb quiet bytes clean done rest more
    · simp only [rpcSendExt, here, more, if_false, Prod.mk.injEq] at run
      obtain ⟨rfl, rfl, rfl⟩ := run
      exact .written quiet bytes done rest more
  | size quiet data bytes =>
    simp only [rpcSendExt, Option.some.inj here, Prod.mk.injEq] at run
    obtain ⟨rfl, rfl, rfl⟩ := run
    exact .sized quiet data bytes
  | header _ sender mem clean seen data bytes =>
    subst here
    obtain ⟨same, rcv, wrote, sender'⟩ := sender.step run
    refine .header _ sender' ?_ ?_ ?_ (by rwa [same]) (by rwa [same])
    · rcases wrote with same | length
      · rwa [same]
      · exact fun _ => length
    · intro v there
      rw [rcv] at there
      exact clean v there
    · intro v d there
      rw [rcv] at there
      exact seen v d there

/-- The sender goes on while the receiver has the message. -/
theorem Reading.send {out : Option Sending} (reading : Reading s.msg node (some s.pc) r) (run : rpcSendExt node pos s = (node', pos', out)) :
    Reading s.msg node' (out.map Sending.pc) r := by
  obtain ⟨sender, data, bytes, place⟩ := reading
  obtain ⟨same, rcv, _, sender'⟩ := sender.step run
  exact ⟨sender', by rwa [same], by rwa [same], place.congr rcv same⟩

/-- The receiver's copies of the data stay as they are. -/
theorem send_rcv {out : Option Sending} (run : rpcSendExt node pos s = (node', pos', out)) (l : Nat) :
    (node'.data l).copy .rcv = (node.data l).copy .rcv := by
  have onData (j : Nat) (f : Line End (Nat → UInt8) → Line End (Nat → UInt8)) (other : (f (node.data j)).copy .rcv = (node.data j).copy .rcv) :
      ((node.onData j f).data l).copy .rcv = (node.data l).copy .rcv := by
    by_cases line : l = j
    · subst line
      rw [onData_self, other]
    · rw [onData_other node _ line]
  unfold rpcSendExt at run
  split at run
  · split at run <;> cases run
    · exact onData _ _ (Line.store_other _ _ rcv_ne)
    · rfl
  · split at run <;> cases run
    · exact onData _ _ (Line.clwb_other _ rcv_ne)
    · rfl
  · cases run
    rfl
  · cases run
    rfl
  · cases run
    rfl

end

end BiProject.RpcCache
