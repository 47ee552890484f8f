import BiProject.Rpc.Channel
import BiProject.RpcCache.Slots

/-!
# The receiver of a slot, and the hardware

The receiver looks at a header as often as it likes and leaves no trace in memory until it has found a message. From then on
what it reads is what memory has, and with its own write-back the slot is quiet again. The hardware changes none of this.
-/

namespace BiProject.RpcCache
set_option autoImplicit false
open BiProject.Lib
open BiProject.Rpc (Msg msgNum maxMsgSize prefix_snoc)

/-- Only the receiver's copies have changed, it has not stored to them, and it has no message in its header. -/
structure Peek (node node' : MsgNode) : Prop where
  hdr : RcvOnly node.hdr node'.hdr
  seen : ∀ v d, node'.hdr.copy .rcv = some (v, d) → v.use = 0
  data : ∀ l, RcvOnly (node.data l) (node'.data l)

section
variable {node node' : MsgNode} {msg : Msg} {pos pos' : Nat} {s : Sending} {r r' : Receiving} {pc : Option SendPc}

/-! ## Looking -/

theorem Quiet.peek (quiet : Quiet node) (peek : Peek node node') : Quiet node' :=
  ⟨quiet.hdr.rcvOnly peek.hdr peek.seen, fun l => (quiet.data l).rcvOnly (peek.data l)⟩

theorem Holds.congr {bytes bytes' : Nat → Nat → UInt8} {k : Nat} (holds : Holds bytes msg k) (same : ∀ l, bytes' l = bytes l) :
    Holds bytes' msg k := by
  intro j b low there
  rw [same]
  exact holds j b low there

theorem SndHdr.own {h h' : Line End MsgMeta} (sender : SndHdr msg h pc) (snd : h'.copy .snd = h.copy .snd) : SndHdr msg h' pc := by
  cases sender with
  | use v d stored length => exact .use v d (snd.trans stored) length
  | wbHdr d stored => exact .wbHdr d (snd.trans stored)
  | done clean =>
    refine .done fun v there => ?_
    rw [snd] at there
    exact clean v there

theorem Filling.peek (filling : Filling msg node pc) (peek : Peek node node') : Filling msg node' pc := by
  have view (l : Nat) := (peek.data l).view
  have mem (l : Nat) := (peek.data l).mem
  have clean (l : Nat) := (peek.data l).rcv
  have quietLine (l : Nat) (quiet : DataQuiet (node.data l)) := quiet.rcvOnly (peek.data l)
  cases filling with
  | copy k quiet short bytes _ rest =>
    exact .copy k (quiet.rcvOnly peek.hdr peek.seen) short (bytes.congr view) clean fun l beyond => quietLine l (rest l beyond)
  | wbData l quiet bytes _ done rest =>
    exact .wbData l (quiet.rcvOnly peek.hdr peek.seen) (bytes.congr view) clean (fun j low => quietLine j (done j low))
      fun j beyond => quietLine j (rest j beyond)
  | size quiet data bytes => exact .size (quiet.rcvOnly peek.hdr peek.seen) (fun l => quietLine l (data l)) (bytes.congr mem)
  | header pc sender used _ _ data bytes =>
    refine .header pc (sender.own peek.hdr.snd) ?_ peek.hdr.rcv peek.seen (fun l => quietLine l (data l)) (bytes.congr mem)
    rwa [peek.hdr.mem]

theorem Filling.clean (filling : Filling msg node pc) : node.hdr.Clean .rcv ∧ ∀ l, (node.data l).Clean .rcv := by
  cases filling with
  | copy _ quiet _ _ clean => exact ⟨quiet.rcv, clean⟩
  | wbData _ quiet _ clean => exact ⟨quiet.rcv, clean⟩
  | size quiet data => exact ⟨quiet.rcv, fun l => (data l).rcv⟩
  | header _ _ _ clean _ data => exact ⟨clean, fun l => (data l).rcv⟩

theorem Filling.seen (filling : Filling msg node pc) : ∀ v d, node.hdr.copy .rcv = some (v, d) → v.use = 0 := by
  cases filling with
  | copy _ quiet => exact quiet.seen
  | wbData _ quiet => exact quiet.seen
  | size quiet => exact quiet.seen
  | header _ _ _ _ seen => exact seen

/-- A receiver that looks for a message. -/
def Looks (r : Receiving) : Prop := r.pc = .flushHdr ∨ r.pc = .use

theorem looks_start (r : Receiving) : Looks { r with pc := loopStart r.flush } := by
  unfold Looks loopStart
  cases r.flush
  · exact Or.inr rfl
  · exact Or.inl rfl

/-- **A look that finds nothing** changes at most the receiver's copy of the header. -/
theorem look_step {out : Receiving ⊕ Msg} (looks : Looks r) (clean : node.hdr.Clean .rcv ∧ ∀ l, (node.data l).Clean .rcv)
    (nothing : r.pc = .use → (node.hdr.view .rcv).use = 0) (run : rpcRecvExt node pos r = (node', pos', out)) :
    pos' = pos ∧ Peek node node' ∧ node'.data = node.data ∧
      (out = .inr [] ∨ ∃ r', out = .inl r' ∧ r'.cur = r.cur ∧ r'.flush = r.flush ∧ Looks r') := by
  have same (l : Nat) : RcvOnly (node.data l) (node.data l) := ⟨rfl, rfl, clean.2 l⟩
  rcases looks with here | here
  · simp only [rpcRecvExt, here, Prod.mk.injEq] at run
    obtain ⟨rfl, rfl, rfl⟩ := run
    exact ⟨rfl, ⟨RcvOnly.clflush clean.1, seen_clflush, same⟩, rfl, Or.inr ⟨_, rfl, rfl, rfl, Or.inr rfl⟩⟩
  · simp only [rpcRecvExt, here, nothing here, if_true, Prod.mk.injEq] at run
    obtain ⟨rfl, rfl, rfl⟩ := run
    refine ⟨rfl, ⟨RcvOnly.load clean.1, seen_load (nothing here), same⟩, rfl, ?_⟩
    split
    · exact Or.inr ⟨_, rfl, rfl, rfl, looks_start r⟩
    · exact Or.inl rfl

/-- **A look that finds a message** has its size from memory, which the sender or the hardware has written. -/
theorem Filling.take (pos : Nat) (filling : Filling msg node pc) (here : r.pc = .use) (found : (node.hdr.view .rcv).use ≠ 0)
    (fresh : r.flush = false → Fresh node) :
    ∃ node' r', rpcRecvExt node pos r = (node', pos, .inl r') ∧ r'.cur = r.cur ∧ r'.flush = r.flush ∧ Reading msg node' pc r' := by
  cases filling with
  | copy k quiet => exact absurd quiet.view found
  | wbData l quiet => exact absurd quiet.view found
  | size quiet => exact absurd quiet.view found
  | header pc sender used clean seen data bytes =>
    have none : node.hdr.copy .rcv = none := by
      cases copy : node.hdr.copy .rcv with
      | none => rfl
      | some c =>
        rw [Line.view_of_copy copy] at found
        exact absurd (seen c.1 c.2 copy) found
    obtain ⟨d, copy, _⟩ := node.hdr.load_copy .rcv
    refine ⟨node.onHdr fun line => line.load .rcv, { r with pc := .size }, ?_, rfl, rfl, ?_, data, bytes, ?_⟩
    · simp only [rpcRecvExt, here, found, if_false]
    · exact sender.own (Line.load_other _ snd_ne)
    · rw [Line.view_of_none none] at found copy
      exact .size _ d rfl copy (used found) fresh

/-! ## Reading -/

theorem dropped_data (l : Nat) (f : Line End (Nat → UInt8) → Line End (Nat → UInt8)) (data : ∀ l, DataQuiet (node.data l))
    (only : RcvOnly (node.data l) (f (node.data l))) : (∀ j, DataQuiet ((node.onData l f).data j)) ∧
      ∀ j, ((node.onData l f).data j).mem = (node.data j).mem := by
  constructor
  · intro j
    by_cases line : j = l
    · subst line
      rw [onData_self]
      exact (data j).rcvOnly only
    · rw [onData_other node _ line]
      exact data j
  · intro j
    by_cases line : j = l
    · subst line
      rw [onData_self, only.mem]
    · rw [onData_other node _ line]

/-- **A step of the receiver** that has found a message. -/
theorem Reading.step (reading : Reading msg node pc r) (sizes : Sizes msg) (run : rpcRecvExt node pos r = (node', pos', .inl r')) :
    pos' = pos ∧ r'.cur = r.cur ∧ r'.flush = r.flush ∧ Reading msg node' pc r' := by
  obtain ⟨sender, data, bytes, place⟩ := reading
  cases place with
  | size v d pc found length fresh =>
    simp only [rpcRecvExt, pc, Prod.mk.injEq, Sum.inl.injEq] at run
    obtain ⟨rfl, rfl, rfl⟩ := run
    refine ⟨rfl, rfl, rfl, sender.own (Line.load_other _ snd_ne), data, bytes, ?_⟩
    have length : (node.hdr.view .rcv).size = msg.length := by rw [Line.view_of_copy found, length]
    cases flush : r.flush with
    | true =>
      refine .flushData 0 ?_ length rfl fun j low => absurd low (Nat.not_lt_zero j)
      simp
    | false =>
      refine .copy ?_ length (List.nil_prefix) fun l low => ?_
      · simp
      · exact Line.view_of_none (fresh flush l (Nat.lt_of_lt_of_le low (dataLines_mono (Nat.le_of_lt sizes.2))))
  | flushData l pc retSz buf dropped =>
    by_cases more : l < dataLines r.retSz
    · simp only [rpcRecvExt, pc, more, if_true, Prod.mk.injEq, Sum.inl.injEq] at run
      obtain ⟨rfl, rfl, rfl⟩ := run
      obtain ⟨quiet, mem⟩ := dropped_data l (fun line => line.clflush .rcv) data (RcvOnly.clflush (data l).rcv)
      refine ⟨rfl, rfl, rfl, sender, quiet, bytes.congr mem, .flushData (l + 1) rfl retSz buf fun j low => ?_⟩
      by_cases line : j = l
      · subst line
        rw [onData_self]
        exact (node.data j).clflush_copy .rcv
      · rw [onData_other node _ line]
        exact dropped j (by omega)
    · simp only [rpcRecvExt, pc, more, if_false, Prod.mk.injEq, Sum.inl.injEq] at run
      obtain ⟨rfl, rfl, rfl⟩ := run
      refine ⟨rfl, rfl, rfl, sender, data, bytes, .copy rfl retSz ?_ fun j low => ?_⟩
      · rw [show ({ r with pc := RecvPc.copy } : Receiving).buf = r.buf from rfl, buf]
        exact List.nil_prefix
      · rw [retSz] at more
        exact Line.view_of_none (dropped j (by omega))
  | copy pc retSz buf same =>
    by_cases more : r.buf.length < r.retSz
    · simp only [rpcRecvExt, pc, more, if_true, Prod.mk.injEq, Sum.inl.injEq] at run
      obtain ⟨rfl, rfl, rfl⟩ := run
      rw [retSz] at more
      have low := line_of_byte more
      obtain ⟨quiet, mem⟩ := dropped_data (r.buf.length / cacheLine) (fun line => line.load .rcv) data (RcvOnly.load (data _).rcv)
      have byte : msg[r.buf.length]? = some ((node.data (r.buf.length / cacheLine)).view .rcv (r.buf.length % cacheLine)) := by
        have there := List.getElem?_eq_getElem more
        have stored := bytes _ _ more there
        rw [same _ low, there, ← stored]
      refine ⟨rfl, rfl, rfl, sender, quiet, bytes.congr mem, .copy rfl retSz (prefix_snoc buf byte) fun l inside => ?_⟩
      rw [mem]
      by_cases line : l = r.buf.length / cacheLine
      · subst line
        obtain ⟨d, copy, _⟩ := (node.data (r.buf.length / cacheLine)).load_copy .rcv
        rw [onData_self, Line.view_of_copy copy]
        exact same _ low
      · rw [onData_other node _ line]
        exact same l inside
    · simp only [rpcRecvExt, pc, more, if_false, Prod.mk.injEq, Sum.inl.injEq] at run
      obtain ⟨rfl, rfl, rfl⟩ := run
      refine ⟨rfl, rfl, rfl, sender, data, bytes, .clearSize rfl retSz (buf.eq_of_length_le ?_)⟩
      omega
  | clearSize pc retSz buf =>
    simp only [rpcRecvExt, pc, Prod.mk.injEq, Sum.inl.injEq] at run
    obtain ⟨rfl, rfl, rfl⟩ := run
    refine ⟨rfl, rfl, rfl, sender.own (by rw [onHdr_hdr, Line.store_other _ _ snd_ne]), data, bytes, ?_⟩
    refine .clearUse { node.hdr.view .rcv with size := 0 } true rfl ?_ rfl retSz buf
    rw [onHdr_hdr, Line.store_copy]
  | clearUse v d pc stored cleared retSz buf =>
    simp only [rpcRecvExt, pc, Prod.mk.injEq, Sum.inl.injEq] at run
    obtain ⟨rfl, rfl, rfl⟩ := run
    refine ⟨rfl, rfl, rfl, sender.own (by rw [onHdr_hdr, Line.store_other _ _ snd_ne]), data, bytes, .wbHdr true rfl ?_ retSz buf⟩
    rw [onHdr_hdr, Line.store_copy, Line.view_of_copy stored, cleared]
  | wbHdr d pc stored retSz buf =>
    have some : r.retSz ≠ 0 := by
      have := sizes.1
      omega
    simp [rpcRecvExt, pc, some] at run

/-- It returns from its last step only. -/
theorem Reading.last {got : Msg} (reading : Reading msg node pc r) (run : rpcRecvExt node pos r = (node', pos', .inr got)) : r.pc = .wbHdr := by
  cases reading.place with
  | wbHdr d pc => exact pc
  | size v d pc => simp [rpcRecvExt, pc] at run
  | flushData l pc =>
    simp only [rpcRecvExt, pc] at run
    split at run <;> simp at run
  | copy pc =>
    simp only [rpcRecvExt, pc] at run
    split at run <;> simp at run
  | clearSize pc => simp [rpcRecvExt, pc] at run
  | clearUse v d pc => simp [rpcRecvExt, pc] at run

/-- **The call returns the message**, and the slot is quiet again if the sender's call has returned. -/
theorem Reading.returns {got : Msg} (reading : Reading msg node none r) (run : rpcRecvExt node pos r = (node', pos', .inr got)) :
    got = msg ∧ pos' = r.cur + 1 ∧ Quiet node' := by
  have last := reading.last run
  obtain ⟨sender, data, bytes, place⟩ := reading
  have clean : node.hdr.Clean .snd := by
    cases sender
    assumption
  cases place with
  | wbHdr d pc stored retSz buf =>
    simp only [rpcRecvExt, pc, Prod.mk.injEq] at run
    obtain ⟨rfl, rfl, returned⟩ := run
    have copy := Line.clwb_copy stored
    refine ⟨?_, rfl, ⟨?_, ?_, Line.clean_of_copy copy, ?_⟩, data⟩
    · split at returned
      · cases returned
      · cases returned
        exact buf
    · rw [onHdr_hdr, Line.clwb_mem, Line.view_of_copy stored]
    · intro v there
      rw [onHdr_hdr, Line.clwb_other _ snd_ne] at there
      exact clean v there
    · intro v d' there
      rw [onHdr_hdr, copy] at there
      cases there
      rfl
  | size v d pc => exact absurd (last.symm.trans pc) nofun
  | flushData l pc => exact absurd (last.symm.trans pc) nofun
  | copy pc => exact absurd (last.symm.trans pc) nofun
  | clearSize pc => exact absurd (last.symm.trans pc) nofun
  | clearUse v d pc => exact absurd (last.symm.trans pc) nofun

/-! ## Flushes -/

theorem Peek.flushHdr (clean : node.hdr.Clean .rcv ∧ ∀ l, (node.data l).Clean .rcv) :
    Peek node (node.onHdr fun line => line.clflush .rcv) :=
  ⟨RcvOnly.clflush clean.1, seen_clflush, fun l => ⟨rfl, rfl, clean.2 l⟩⟩

theorem Peek.flushData (l : Nat) (clean : node.hdr.Clean .rcv ∧ ∀ l, (node.data l).Clean .rcv)
    (seen : ∀ v d, node.hdr.copy .rcv = some (v, d) → v.use = 0) : Peek node (node.onData l fun line => line.clflush .rcv) := by
  refine ⟨⟨rfl, rfl, clean.1⟩, seen, fun j => ?_⟩
  by_cases line : j = l
  · subst line
    rw [onData_self]
    exact RcvOnly.clflush (clean.2 j)
  · rw [onData_other node _ line]
    exact ⟨rfl, rfl, clean.2 j⟩

/-! ## The hardware -/

theorem onData_writeBack {l : Nat} (quiet : DataQuiet (node.data l)) (e : End) : (node.onData l fun line => line.writeBack e) = node := by
  simp only [MsgNode.onData, quiet.writeBack e, Function.update_eq_self]

theorem HdrQuiet.onHdr_writeBack (quiet : HdrQuiet node.hdr) (e : End) : (node.onHdr fun line => line.writeBack e) = node := by
  simp only [MsgNode.onHdr, quiet.writeBack e]

theorem SndHdr.writeBack {h : Line End MsgMeta} (sender : SndHdr msg h pc) (e : End) : SndHdr msg (h.writeBack e) pc := by
  cases e with
  | rcv => exact sender.own (h.writeBack_other snd_ne)
  | snd =>
    cases sender with
    | use v d stored length =>
      obtain ⟨d', copy⟩ := Line.writeBack_copy stored
      exact .use v d' copy length
    | wbHdr d stored =>
      obtain ⟨d', copy⟩ := Line.writeBack_copy stored
      exact .wbHdr d' copy
    | done clean => exact .done (writeBack_clean h .snd .snd clean)

theorem SndHdr.writeBack_mem {h : Line End MsgMeta} (sender : SndHdr msg h pc) :
    (h.writeBack .snd).mem = h.mem ∨ (h.writeBack .snd).mem.size = msg.length := by
  rcases h.writeBack_cases .snd with same | ⟨v, here, mem, _⟩
  · exact Or.inl (by rw [same])
  · rw [mem]
    cases sender with
    | use w d stored length =>
      rw [stored] at here
      cases here
      exact Or.inr length
    | wbHdr d stored =>
      rw [stored] at here
      cases here
      exact Or.inr rfl
    | done clean => exact absurd here (clean v)

theorem Filling.writeBackHdr (filling : Filling msg node pc) (e : End) : Filling msg (node.onHdr fun line => line.writeBack e) pc := by
  cases filling with
  | copy k quiet short bytes clean rest =>
    rw [quiet.onHdr_writeBack]
    exact .copy k quiet short bytes clean rest
  | wbData l quiet bytes clean done rest =>
    rw [quiet.onHdr_writeBack]
    exact .wbData l quiet bytes clean done rest
  | size quiet data bytes =>
    rw [quiet.onHdr_writeBack]
    exact .size quiet data bytes
  | header pc sender used clean seen data bytes =>
    refine .header pc (sender.writeBack e) ?_ (writeBack_clean _ e .rcv clean) ?_ data bytes
    · cases e with
      | rcv => rwa [onHdr_hdr, Line.writeBack_clean clean]
      | snd =>
        rcases sender.writeBack_mem with same | length
        · rwa [onHdr_hdr, same]
        · exact fun _ => length
    · cases e with
      | rcv => rwa [onHdr_hdr, Line.writeBack_clean clean]
      | snd => rwa [onHdr_hdr, Line.writeBack_other _ rcv_ne]

theorem Filling.writeBackData (filling : Filling msg node pc) (l : Nat) (e : End) :
    Filling msg (node.onData l fun line => line.writeBack e) pc := by
  have clean' (clean : ∀ j, (node.data j).Clean .rcv) (j : Nat) : ((node.onData l fun line => line.writeBack e).data j).Clean .rcv := by
    by_cases line : j = l
    · subst line
      rw [onData_self]
      exact writeBack_clean _ e .rcv (clean j)
    · rw [onData_other node _ line]
      exact clean j
  have view (clean : ∀ j, (node.data j).Clean .rcv) (j : Nat) :
      ((node.onData l fun line => line.writeBack e).data j).view .snd = (node.data j).view .snd := by
    by_cases line : j = l
    · subst line
      rw [onData_self]
      cases e with
      | snd => exact writeBack_view _ .snd
      | rcv => rw [Line.writeBack_clean (clean j)]
    · rw [onData_other node _ line]
  have quietLine (j : Nat) (quiet : DataQuiet (node.data j)) : DataQuiet ((node.onData l fun line => line.writeBack e).data j) := by
    by_cases line : j = l
    · subst line
      rwa [onData_self, quiet.writeBack]
    · rwa [onData_other node _ line]
  cases filling with
  | copy k quiet short bytes clean rest =>
    exact .copy k quiet short (bytes.congr (view clean)) (clean' clean) fun j beyond => quietLine j (rest j beyond)
  | wbData i quiet bytes clean done rest =>
    exact .wbData i quiet (bytes.congr (view clean)) (clean' clean) (fun j low => quietLine j (done j low)) fun j beyond => quietLine j
      (rest j beyond)
  | size quiet data bytes =>
    rw [onData_writeBack (data l)]
    exact .size quiet data bytes
  | header pc sender used clean seen data bytes =>
    rw [onData_writeBack (data l)]
    exact .header pc sender used clean seen data bytes

theorem Reading.writeBackHdr (reading : Reading msg node pc r) (e : End) : Reading msg (node.onHdr fun line => line.writeBack e) pc r := by
  obtain ⟨sender, data, bytes, place⟩ := reading
  refine ⟨sender.writeBack e, data, bytes, ?_⟩
  cases e with
  | snd => exact place.congr (Line.writeBack_other _ rcv_ne) rfl
  | rcv =>
    cases place with
    | size v d pc found length fresh =>
      obtain ⟨d', copy⟩ := Line.writeBack_copy found
      exact .size v d' pc copy length fresh
    | flushData l pc retSz buf dropped => exact .flushData l pc retSz buf dropped
    | copy pc retSz buf view => exact .copy pc retSz buf view
    | clearSize pc retSz buf => exact .clearSize pc retSz buf
    | clearUse v d pc stored cleared retSz buf =>
      obtain ⟨d', copy⟩ := Line.writeBack_copy stored
      exact .clearUse v d' pc copy cleared retSz buf
    | wbHdr d pc stored retSz buf =>
      obtain ⟨d', copy⟩ := Line.writeBack_copy stored
      exact .wbHdr d' pc copy retSz buf

/-- What the receiver has not stays out of its cache. -/
theorem dropped_writeBack (node : MsgNode) (l : Nat) (e : End) {j : Nat} (none : (node.data j).copy .rcv = none) :
    ((node.onData l fun line => line.writeBack e).data j).copy .rcv = Option.none := by
  by_cases line : j = l
  · subst line
    rw [onData_self]
    cases e with
    | snd => rwa [Line.writeBack_other _ rcv_ne]
    | rcv => rwa [Line.writeBack_clean (Line.clean_of_none none)]
  · rwa [onData_other node _ line]

end

end BiProject.RpcCache
