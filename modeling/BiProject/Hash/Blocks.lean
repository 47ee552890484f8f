import BiProject.Hash.Jenkins

/-!
# What is hashed

However a key is read, its bytes go in blocks of twelve into the words of the state, and nothing else does. So two keys
with the same bytes have the same hash, wherever they are in memory and whatever follows them there.
-/

namespace BiProject.Hash
set_option autoImplicit false

/-! ## The bytes of a key -/

/-- A byte of a key, or 0 beyond its end. -/
def pad (f : Nat → UInt8) (n i : Nat) : UInt8 := if i < n then f i else 0

/-- A word of a block of `n` bytes. -/
def word (e : Endian) (f : Nat → UInt8) (n i : Nat) : UInt32 :=
  (pad f n (4 * i)).toUInt32 <<< e.shift 0 + (pad f n (4 * i + 1)).toUInt32 <<< e.shift 1 +
    (pad f n (4 * i + 2)).toUInt32 <<< e.shift 2 + (pad f n (4 * i + 3)).toUInt32 <<< e.shift 3

/-- The three words of a block. -/
def words (e : Endian) (f : Nat → UInt8) (n : Nat) : State := ⟨word e f n 0, word e f n 1, word e f n 2⟩

/-- The state after the bytes of a key, block by block. -/
def digest (e : Endian) (f : Nat → UInt8) (length : Nat) (s : State) : State :=
  if 12 < length then digest e (fun i => f (i + 12)) (length - 12) (mix (s.add (words e f 12)))
  else if length = 0 then s
  else final (s.add (words e f length))
termination_by length

/-! ## Words -/

section
variable {e : Endian} {m : Mem} {f g : Nat → UInt8} {k length n i : Nat} {s : State}

/-- A byte in each place of a word. -/
theorem shift_toNat (x : UInt8) : (x.toUInt32 <<< (0 : UInt32)).toNat = x.toNat ∧ (x.toUInt32 <<< (8 : UInt32)).toNat = x.toNat * 2 ^ 8 ∧
    (x.toUInt32 <<< (16 : UInt32)).toNat = x.toNat * 2 ^ 16 ∧ (x.toUInt32 <<< (24 : UInt32)).toNat = x.toNat * 2 ^ 24 := by
  have small := x.toNat_lt
  simp only [UInt32.toNat_shiftLeft, UInt8.toNat_toUInt32, Nat.shiftLeft_eq, UInt32.reduceToNat, Nat.reduceMod, Nat.reducePow]
  omega

/-- The sum of four bytes at their places has no carry. -/
theorem bytes_toNat (e : Endian) (x y z w : UInt8) :
    (x.toUInt32 <<< e.shift 0 + y.toUInt32 <<< e.shift 1 + z.toUInt32 <<< e.shift 2 + w.toUInt32 <<< e.shift 3).toNat =
      match e with
      | .little => x.toNat + y.toNat * 2 ^ 8 + z.toNat * 2 ^ 16 + w.toNat * 2 ^ 24
      | .big => x.toNat * 2 ^ 24 + y.toNat * 2 ^ 16 + z.toNat * 2 ^ 8 + w.toNat := by
  have hx := x.toNat_lt
  have hy := y.toNat_lt
  have hz := z.toNat_lt
  have hw := w.toNat_lt
  obtain ⟨x0, x8, x16, x24⟩ := shift_toNat x
  obtain ⟨y0, y8, y16, y24⟩ := shift_toNat y
  obtain ⟨z0, z8, z16, z24⟩ := shift_toNat z
  obtain ⟨w0, w8, w16, w24⟩ := shift_toNat w
  cases e with
  | little =>
    simp only [Endian.shift, UInt32.toNat_add, x0, y8, z16, w24]
    omega
  | big =>
    simp only [Endian.shift, UInt32.toNat_add, x24, y16, z8, w0]
    omega

/-- A load of a word has its four bytes. -/
theorem load32_eq (e : Endian) (m : Mem) (p : Nat) : load32 e m p = (m p).toUInt32 <<< e.shift 0 + (m (p + 1)).toUInt32 <<< e.shift 1 +
    (m (p + 2)).toUInt32 <<< e.shift 2 + (m (p + 3)).toUInt32 <<< e.shift 3 := by
  have h0 := (m p).toNat_lt
  have h1 := (m (p + 1)).toNat_lt
  have h2 := (m (p + 2)).toNat_lt
  have h3 := (m (p + 3)).toNat_lt
  apply UInt32.toNat_inj.mp
  rw [bytes_toNat]
  cases e with
  | little =>
    simp only [load32, UInt32.toNat_ofNat']
    omega
  | big =>
    simp only [load32, UInt32.toNat_ofNat']
    omega

/-- A word within the key is what is loaded, -/
theorem word_full (full : 4 * i + 4 ≤ n) : word e (fun j => m (k + j)) n i = load32 e m (k + 4 * i) := by
  rw [load32_eq]
  simp only [word, pad, show 4 * i < n by omega, show 4 * i + 1 < n by omega, show 4 * i + 2 < n by omega, show 4 * i + 3 < n by omega,
    if_true, Nat.add_assoc]

/-- and one beyond its end is 0. -/
theorem word_none (none : n ≤ 4 * i) : word e f n i = 0 := by
  simp only [word, pad, show ¬ 4 * i < n by omega, show ¬ 4 * i + 1 < n by omega, show ¬ 4 * i + 2 < n by omega,
    show ¬ 4 * i + 3 < n by omega, if_false]
  cases e <;> decide

/-- A mask of high bits cuts the low ones off. -/
theorem and_high (x j : Nat) (small : x < 2 ^ 32) (low : j ≤ 32) : x &&& (2 ^ (32 - j) - 1) <<< j = x / 2 ^ j * 2 ^ j := by
  rw [← Nat.shiftRight_eq_div_pow, ← Nat.shiftLeft_eq]
  apply Nat.eq_of_testBit_eq
  intro i
  simp only [Nat.testBit_and, Nat.testBit_shiftLeft, Nat.testBit_shiftRight, Nat.testBit_two_pow_sub_one]
  by_cases under : i < j
  · simp [show ¬ i ≥ j by omega]
  · by_cases inside : i < 32
    · simp [show i ≥ j by omega, show i - j < 32 - j by omega, show j + (i - j) = i by omega]
    · have above : x.testBit i = false := Nat.testBit_eq_false_of_lt (lt_of_lt_of_le small (Nat.pow_le_pow_right (by decide) (by omega)))
      simp [above, show j + (i - j) = i by omega]

/-- What the masks leave. -/
theorem mask_toNat (x : UInt32) : (x &&& Endian.little.mask 3).toNat = x.toNat % 2 ^ 24 ∧ (x &&& Endian.little.mask 2).toNat = x.toNat % 2 ^ 16 ∧
    (x &&& Endian.little.mask 1).toNat = x.toNat % 2 ^ 8 ∧ (x &&& Endian.big.mask 3).toNat = x.toNat / 2 ^ 8 * 2 ^ 8 ∧
    (x &&& Endian.big.mask 2).toNat = x.toNat / 2 ^ 16 * 2 ^ 16 ∧ (x &&& Endian.big.mask 1).toNat = x.toNat / 2 ^ 24 * 2 ^ 24 := by
  have small := x.toNat_lt
  simp only [Endian.mask, UInt32.toNat_and]
  exact ⟨Nat.and_two_pow_sub_one_eq_mod _ 24, Nat.and_two_pow_sub_one_eq_mod _ 16, Nat.and_two_pow_sub_one_eq_mod _ 8,
    and_high _ 8 small (by decide), and_high _ 16 small (by decide), and_high _ 24 small (by decide)⟩

/-- The masks keep the bytes of the key. -/
theorem word_part (some : 4 * i < n) (part : n < 4 * i + 4) :
    word e (fun j => m (k + j)) n i = load32 e m (k + 4 * i) &&& e.mask (n - 4 * i) := by
  obtain ⟨l3, l2, l1, b3, b2, b1⟩ := mask_toNat (load32 e m (k + 4 * i))
  rw [load32_eq] at *
  have h0 := (m (k + 4 * i)).toNat_lt
  have h1 := (m (k + 4 * i + 1)).toNat_lt
  have h2 := (m (k + 4 * i + 2)).toNat_lt
  have h3 := (m (k + 4 * i + 3)).toNat_lt
  apply UInt32.toNat_inj.mp
  rw [word, bytes_toNat]
  rw [bytes_toNat] at l3 l2 l1 b3 b2 b1
  obtain rfl | rfl | rfl : n = 4 * i + 1 ∨ n = 4 * i + 2 ∨ n = 4 * i + 3 := by omega
  · rw [Nat.add_sub_cancel_left]
    cases e with
    | little =>
      rw [l1]
      simp [pad]
      omega
    | big =>
      rw [b1]
      simp [pad]
      omega
  · rw [Nat.add_sub_cancel_left]
    cases e with
    | little =>
      rw [l2]
      simp [pad, ← Nat.add_assoc]
      omega
    | big =>
      rw [b2]
      simp [pad, ← Nat.add_assoc]
      omega
  · rw [Nat.add_sub_cancel_left]
    cases e with
    | little =>
      rw [l3]
      simp [pad, ← Nat.add_assoc]
      omega
    | big =>
      rw [b3]
      simp [pad, ← Nat.add_assoc]
      omega

/-! ## The ways to read -/

/-- The end of a key of at most twelve bytes. -/
theorem digest_last (e : Endian) (f : Nat → UInt8) (s : State) (short : n ≤ 12) :
    digest e f n s = finish s (if n = 0 then none else some (s.add (words e f n))) := by
  rw [digest, if_neg (by omega)]
  split <;> rfl

/-- The words of the last block are those of the key. -/
theorem lastWords_eq (short : n ≤ 12) :
    lastWords e m k s n = if n = 0 then none else some (s.add (words e (fun j => m (k + j)) n)) := by
  interval_cases n <;>
    simp (disch := decide) only [lastWords, State.add, words, word_full, word_part, word_none, UInt32.add_zero, Nat.reduceMul, Nat.reduceSub,
      Nat.add_zero, if_true, if_false, OfNat.ofNat_ne_zero, one_ne_zero]

/-- A block of twelve bytes. -/
theorem digest_block (long : 12 < length) : digest e (fun j => m (k + j)) length s =
    digest e (fun j => m (k + 12 + j)) (length - 12) (mix ⟨s.a + load32 e m k, s.b + load32 e m (k + 4), s.c + load32 e m (k + 8)⟩) := by
  rw [digest, if_pos long]
  have block : s.add (words e (fun j => m (k + j)) 12) = ⟨s.a + load32 e m k, s.b + load32 e m (k + 4), s.c + load32 e m (k + 8)⟩ := by
    simp (disch := decide) only [State.add, words, word_full, Nat.reduceMul, Nat.add_zero]
  have rest : (fun i => m (k + (i + 12))) = fun j => m (k + 12 + j) := by
    funext i
    rw [Nat.add_comm i, Nat.add_assoc]
  rw [block, rest]

/-- **32-bit words.** -/
theorem wordBlocks_eq (e : Endian) (m : Mem) (k length : Nat) (s : State) :
    finish (wordBlocks e m k length s).1 (lastWords e m (wordBlocks e m k length s).2.1 (wordBlocks e m k length s).1
      (wordBlocks e m k length s).2.2) = digest e (fun j => m (k + j)) length s := by
  fun_induction wordBlocks e m k length s with
  | case1 k length s long ih => rw [ih, digest_block long]
  | case2 k length s short =>
    have few : length ≤ 12 := Nat.le_of_not_lt short
    rw [digest_last e _ s few, lastWords_eq few]

/-- The last block is not longer than the others. -/
theorem wordBlocks_short (e : Endian) (m : Mem) (k length : Nat) (s : State) : (wordBlocks e m k length s).2.2 ≤ 12 := by
  fun_induction wordBlocks e m k length s with
  | case1 k length s long ih => exact ih
  | case2 k length s short => exact Nat.le_of_not_lt short

/-- Two halves are a word, -/
theorem load16_pair (m : Mem) (p : Nat) : load16 m p + load16 m (p + 2) <<< 16 = load32 .little m p := by
  have h0 := (m p).toNat_lt
  have h1 := (m (p + 1)).toNat_lt
  have h2 := (m (p + 2)).toNat_lt
  have h3 := (m (p + 3)).toNat_lt
  apply UInt32.toNat_inj.mp
  simp only [load16, load32, UInt32.toNat_add, UInt32.toNat_shiftLeft, UInt32.toNat_ofNat', Nat.shiftLeft_eq, UInt32.reduceToNat, Nat.reduceMod]
  rw [show p + 2 + 1 = p + 3 from rfl]
  omega

/-- also where the word is masked. -/
theorem load16_masked (m : Mem) (p : Nat) : load8 m (p + 2) <<< 16 + load16 m p = load32 .little m p &&& Endian.little.mask 3 ∧
    load16 m p = load32 .little m p &&& Endian.little.mask 2 ∧ load8 m p = load32 .little m p &&& Endian.little.mask 1 := by
  obtain ⟨l3, l2, l1, _⟩ := mask_toNat (load32 .little m p)
  have h0 := (m p).toNat_lt
  have h1 := (m (p + 1)).toNat_lt
  have h2 := (m (p + 2)).toNat_lt
  have h3 := (m (p + 3)).toNat_lt
  refine ⟨UInt32.toNat_inj.mp ?_, UInt32.toNat_inj.mp ?_, UInt32.toNat_inj.mp ?_⟩
  · rw [l3]
    simp only [load8, load16, load32, UInt32.toNat_add, UInt32.toNat_shiftLeft, UInt32.toNat_ofNat', Nat.shiftLeft_eq, UInt32.reduceToNat,
      Nat.reduceMod, UInt8.toNat_toUInt32]
    omega
  · rw [l2]
    simp only [load16, load32, UInt32.toNat_ofNat']
    omega
  · rw [l1]
    simp only [load8, load32, UInt32.toNat_ofNat', UInt8.toNat_toUInt32]
    omega

/-- So the halves of the last block are its words. -/
theorem lastHalves_eq (short : n ≤ 12) : lastHalves m k s n = lastWords .little m k s n := by
  obtain ⟨a3, a2, a1⟩ := load16_masked m k
  obtain ⟨b3, b2, b1⟩ := load16_masked m (k + 4)
  obtain ⟨c3, c2, c1⟩ := load16_masked m (k + 8)
  interval_cases n <;> simp only [lastHalves, lastWords, UInt32.add_assoc, load16_pair] <;> simp only [← a3, ← b3, ← c3, ← a1, ← b1, ← c1, ← a2,
    ← b2, ← c2]

/-- **16-bit words** are read in pairs. -/
theorem halfBlocks_eq (m : Mem) (k length : Nat) (s : State) : halfBlocks m k length s = wordBlocks .little m k length s := by
  fun_induction halfBlocks m k length s with
  | case1 k length s long ih =>
    rw [ih, wordBlocks.eq_def .little m k length s, if_pos long, load16_pair, load16_pair, load16_pair]
  | case2 k length s short => rw [wordBlocks, if_neg short]

/-- Four bytes, one after another. -/
theorem byteAt_word (e : Endian) (m : Mem) (k i : Nat) (x : UInt32) :
    x + byteAt e m k (4 * i) + byteAt e m k (4 * i + 1) + byteAt e m k (4 * i + 2) + byteAt e m k (4 * i + 3) = x + load32 e m (k + 4 * i) := by
  rw [load32_eq]
  simp only [byteAt, load8, Nat.mul_mod_right, Nat.mul_add_mod, Nat.reduceMod, UInt32.add_assoc, Nat.add_assoc]

/-- **Bytes** make up the words. -/
theorem byteBlocks_eq (e : Endian) (m : Mem) (k length : Nat) (s : State) : byteBlocks e m k length s = wordBlocks e m k length s := by
  fun_induction byteBlocks e m k length s with
  | case1 k length s long ih =>
    rw [ih, wordBlocks.eq_def e m k length s, if_pos long]
    have first := byteAt_word e m k 0 s.a
    have second := byteAt_word e m k 1 s.b
    have third := byteAt_word e m k 2 s.c
    simp only [Nat.reduceMul, Nat.reduceAdd, Nat.add_zero] at first second third
    rw [first, second, third]
  | case2 k length s short => rw [wordBlocks, if_neg short]

/-- A case that the length falls through, or not. -/
theorem byteAt_pad (e : Endian) (m : Mem) (k n j : Nat) (x : UInt32) : (if j < n then x + byteAt e m k j else x) =
    x + (pad (fun j => m (k + j)) n j).toUInt32 <<< e.shift (j % 4) := by
  unfold pad
  split
  · rfl
  · simp

/-- The bytes of the last block make up its words. -/
theorem lastBytes_eq (e : Endian) (m : Mem) (k : Nat) (s : State) (n : Nat) :
    lastBytes e m k s n = if n = 0 then none else some (s.add (words e (fun j => m (k + j)) n)) := by
  -- the bytes are added from the last one on
  have turned (x y z w v : UInt32) : v + w + z + y + x = v + (x + y + z + w) := by
    rw [UInt32.add_assoc, UInt32.add_assoc, UInt32.add_assoc, UInt32.add_comm w, UInt32.add_comm z, UInt32.add_comm y, UInt32.add_assoc,
      UInt32.add_assoc]
  simp only [lastBytes, byteAt_pad]
  simp only [State.add, words, word, turned, Nat.reduceMod, Nat.reduceMul, Nat.reduceAdd]

/-! ## Keys -/

/-- **Where a key is does not matter** to the function, nor what is beyond its end. -/
theorem jenkinsState_eq (m : Mem) (key length : Nat) :
    jenkinsState m key length = digest .little (fun j => m (key + j)) length (start length) := by
  have read := wordBlocks_eq .little m key length (start length)
  have short := wordBlocks_short .little m key length (start length)
  unfold jenkinsState
  split
  · exact read
  · split
    · simp only [halfBlocks_eq, lastHalves_eq short]
      exact read
    · simp only [byteBlocks_eq, lastBytes_eq, ← lastWords_eq short]
      exact read

/-- The same where the first byte is the highest. -/
theorem jenkinsStateBig_eq (m : Mem) (key length : Nat) :
    jenkinsStateBig m key length = digest .big (fun j => m (key + j)) length (start length) := by
  have read := wordBlocks_eq .big m key length (start length)
  have short := wordBlocks_short .big m key length (start length)
  unfold jenkinsStateBig
  split
  · exact read
  · simp only [byteBlocks_eq, lastBytes_eq, ← lastWords_eq short]
    exact read

/-- Words depend on the bytes of the key only, -/
theorem word_congr (same : ∀ i < n, f i = g i) (i : Nat) : word e f n i = word e g n i := by
  have pads (j : Nat) : pad f n j = pad g n j := by
    unfold pad
    split
    · rename_i inside
      exact same j inside
    · rfl
  simp only [word, pads]

/-- and so does the state. -/
theorem digest_congr (same : ∀ i < length, f i = g i) : digest e f length s = digest e g length s := by
  fun_induction digest e f length s generalizing g with
  | case1 f length s long ih =>
    rw [digest.eq_def e g length s, if_pos long, ih fun i inside => same (i + 12) (by omega)]
    have first (i : Nat) : word e f 12 i = word e g 12 i := word_congr (fun i inside => same i (by omega)) i
    simp only [words, first]
  | case2 f s => rw [digest, if_neg (by decide), if_pos rfl]
  | case3 f length s short some =>
    rw [digest, if_neg short, if_neg some]
    simp only [words, word_congr same]

/-! ## Nothing is lost -/

/-- The words of a block have all its bytes. -/
theorem bytes_of_word (same : word e f n i = word e g n i) {j : Nat} (place : j < 4) (inside : 4 * i + j < n) : f (4 * i + j) = g (4 * i + j) := by
  have sums := congrArg UInt32.toNat same
  rw [word, word, bytes_toNat, bytes_toNat] at sums
  have bytes (h : Nat → UInt8) (l : Nat) : (pad h n l).toNat < 2 ^ 8 := (pad h n l).toNat_lt
  have f0 := bytes f (4 * i)
  have f1 := bytes f (4 * i + 1)
  have f2 := bytes f (4 * i + 2)
  have f3 := bytes f (4 * i + 3)
  have g0 := bytes g (4 * i)
  have g1 := bytes g (4 * i + 1)
  have g2 := bytes g (4 * i + 2)
  have g3 := bytes g (4 * i + 3)
  have pads : pad f n (4 * i + j) = pad g n (4 * i + j) := by
    apply UInt8.toNat_inj.mp
    cases e <;> interval_cases j <;> simp only [Nat.add_zero] at sums ⊢ <;> omega
  simpa [pad, inside] using pads

/-- The words of a block tell its bytes. -/
theorem bytes_of_words (short : n ≤ 12) (same : words e f n = words e g n) : ∀ i < n, f i = g i := by
  intro i inside
  have split : 4 * (i / 4) + i % 4 = i := Nat.div_add_mod i 4
  have place : i % 4 < 4 := Nat.mod_lt i (by decide)
  have each : word e f n (i / 4) = word e g n (i / 4) := by
    have bound : i / 4 < 3 := by omega
    interval_cases i / 4
    · exact congrArg State.a same
    · exact congrArg State.b same
    · exact congrArg State.c same
  have here := bytes_of_word each place (by omega)
  rwa [split] at here

end

/-- A round of `mix` on three of its variables, and of `final` on two. -/
def mixRound (k : UInt32) (s : State) : State := ⟨(s.a - s.c) ^^^ rot s.c k, s.b, s.c + s.b⟩

/-- A round of `final`. -/
def finalRound (k : UInt32) (s : State) : State := ⟨(s.a ^^^ s.b) - rot s.b k, s.b, s.c⟩

/-- The variables in turn. -/
def turn (s : State) : State := ⟨s.b, s.c, s.a⟩

/-- Exchanging the words loses nothing, -/
theorem turn_injective : Function.Injective turn := by
  intro s s' same
  simp only [turn, State.mk.injEq] at same
  exact State.ext same.2.2 same.1 same.2.1

/-- and neither does a round of `mix` -/
theorem mixRound_injective (k : UInt32) : Function.Injective (mixRound k) := by
  intro s s' same
  simp only [mixRound, State.mk.injEq] at same
  obtain ⟨first, second, third⟩ := same
  rw [second] at third
  have c : s.c = s'.c := (UInt32.add_left_inj s'.b).mp third
  rw [c] at first
  have a : s.a = s'.a := (UInt32.sub_left_inj s'.c).mp ((UInt32.xor_left_inj (rot s'.c k)).mp first)
  exact State.ext a second c

/-- or one of `final`. -/
theorem finalRound_injective (k : UInt32) : Function.Injective (finalRound k) := by
  intro s s' same
  simp only [finalRound, State.mk.injEq] at same
  obtain ⟨first, second, third⟩ := same
  rw [second] at first
  have a : s.a = s'.a := (UInt32.xor_left_inj s'.b).mp ((UInt32.sub_left_inj (rot s'.b k)).mp first)
  exact State.ext a second third

/-- **`mix` is reversible.** -/
theorem mix_injective : Function.Injective mix := by
  have round (k : UInt32) := turn_injective.comp (mixRound_injective k)
  exact (round 4).comp ((round 19).comp ((round 16).comp ((round 8).comp ((round 6).comp (round 4)))))

/-- So is `final`. -/
theorem final_injective : Function.Injective final := by
  have round (k : UInt32) := finalRound_injective k
  have turns := turn_injective.comp turn_injective
  have swap : Function.Injective fun s : State => (⟨s.c, s.b, s.a⟩ : State) := by
    intro s s' same
    simp only [State.mk.injEq] at same
    exact State.ext same.2.2 same.2.1 same.1
  have later := (round 24).comp (turns.comp ((round 14).comp (turns.comp ((round 4).comp turns))))
  have sooner := (round 16).comp (turns.comp ((round 25).comp (turns.comp ((round 11).comp (turns.comp (round 14))))))
  exact swap.comp (later.comp (sooner.comp swap))

/-- The state before a block is added is told by the one after, -/
theorem add_injective (w : State) : Function.Injective fun s : State => s.add w := by
  intro s s' same
  simp only [State.add, State.mk.injEq] at same
  exact State.ext ((UInt32.add_left_inj w.a).mp same.1) ((UInt32.add_left_inj w.b).mp same.2.1) ((UInt32.add_left_inj w.c).mp same.2.2)

/-- and so is the block. -/
theorem add_cancel {s w w' : State} (same : s.add w = s.add w') : w = w' := by
  simp only [State.add, State.mk.injEq] at same
  exact State.ext ((UInt32.add_right_inj s.a).mp same.1) ((UInt32.add_right_inj s.b).mp same.2.1) ((UInt32.add_right_inj s.c).mp same.2.2)

section
variable {e : Endian} {f g : Nat → UInt8} {length block : Nat}

/-- The bytes of a key fixed, the state at the end tells the one before it. -/
theorem digest_injective (e : Endian) (f : Nat → UInt8) (length : Nat) : Function.Injective (digest e f length) := by
  intro s s' same
  fun_induction digest e f length s generalizing s' with
  | case1 f length s long ih =>
    rw [digest.eq_def e f length s', if_pos long] at same
    exact add_injective _ (mix_injective (ih same))
  | case2 f s => rwa [digest, if_neg (by decide), if_pos rfl] at same
  | case3 f length s short some =>
    rw [digest, if_neg short, if_neg some] at same
    exact add_injective _ (final_injective same)

/-- **A block of a key is in the state at the end**, the other blocks fixed. -/
theorem digest_block_inj (s : State) (others : ∀ i < length, i / 12 ≠ block → f i = g i) (same : digest e f length s = digest e g length s) :
    ∀ i < length, f i = g i := by
  fun_induction digest e f length s generalizing g block with
  | case1 f length s long ih =>
    rw [digest.eq_def e g length s, if_pos long] at same
    have tail : ∀ i < length - 12, f (i + 12) = g (i + 12) := by
      by_cases first : block = 0
      · intro i inside
        exact others (i + 12) (by omega) (by omega)
      · have block12 (i : Nat) : word e f 12 i = word e g 12 i := word_congr (fun i inside => others i (by omega) (by omega)) i
        simp only [words, block12] at same ih
        have shifted : ∀ i < length - 12, i / 12 ≠ block - 1 → f (i + 12) = g (i + 12) :=
          fun i inside other => others (i + 12) (by omega) (by omega)
        exact ih shifted same
    rw [digest_congr tail] at same
    have start := bytes_of_words le_rfl (add_cancel (mix_injective (digest_injective _ _ _ same)))
    intro i inside
    by_cases early : i < 12
    · exact start i early
    · have rest := tail (i - 12) (by omega)
      rwa [Nat.sub_add_cancel (Nat.le_of_not_lt early)] at rest
  | case2 f s => exact fun i inside => absurd inside (Nat.not_lt_zero i)
  | case3 f length s short some =>
    rw [digest.eq_def e g length s, if_neg short, if_neg some] at same
    exact bytes_of_words (Nat.le_of_not_lt short) (add_cancel (final_injective same))

end

/-! ## Keys in memory -/

/-- **The hash of a key is a function of its bytes**: where it is in memory does not matter, so neither does the way in which
it is read, nor what follows it. -/
theorem hash_of_bytes (m m' : Mem) (key key' length : Nat) (same : ∀ i < length, m (key + i) = m' (key' + i)) :
    jenkinsHash m key length = jenkinsHash m' key' length ∧ jenkinsHashBig m key length = jenkinsHashBig m' key' length := by
  constructor
  · rw [jenkinsHash, jenkinsHash, jenkinsState_eq, jenkinsState_eq, digest_congr same]
  · rw [jenkinsHashBig, jenkinsHashBig, jenkinsStateBig_eq, jenkinsStateBig_eq, digest_congr same]

/-- Five bytes at a multiple of four, and between two others. -/
theorem hash_of_bytes_moved : jenkinsHash (fun i => if i < 5 then 97 else 1) 0 5 = jenkinsHash (fun i => if 1 ≤ i ∧ i < 6 then 97 else 2) 1 5 :=
  (hash_of_bytes (fun i => if i < 5 then 97 else 1) (fun i => if 1 ≤ i ∧ i < 6 then 97 else 2) 0 1 5 (by decide)).1

/-- **Keys that differ in one block are told apart** by the state in which the function returns. -/
theorem state_tells_block (m m' : Mem) (key key' length block : Nat) (others : ∀ i < length, i / 12 ≠ block → m (key + i) = m' (key' + i))
    (differ : ∃ i < length, m (key + i) ≠ m' (key' + i)) :
    jenkinsState m key length ≠ jenkinsState m' key' length ∧ jenkinsStateBig m key length ≠ jenkinsStateBig m' key' length := by
  obtain ⟨i, inside, differ⟩ := differ
  constructor
  · rw [jenkinsState_eq, jenkinsState_eq]
    exact fun same => differ (digest_block_inj _ others same i inside)
  · rw [jenkinsStateBig_eq, jenkinsStateBig_eq]
    exact fun same => differ (digest_block_inj _ others same i inside)

/-- Two keys of twenty bytes with a difference in the second block. -/
theorem state_tells_block_second : jenkinsState (fun _ => 0) 0 20 ≠ jenkinsState (fun i => if i = 15 then 1 else 0) 0 20 :=
  (state_tells_block (fun _ => 0) (fun i => if i = 15 then 1 else 0) 0 0 20 1 (by decide) ⟨15, by decide, by decide⟩).1

end BiProject.Hash
