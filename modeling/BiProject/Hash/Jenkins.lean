import Mathlib.Data.Nat.Bitwise
import Mathlib.Tactic.IntervalCases

/-!
# The hash of a key

`jenkins_hash` of the memcached clients. It reads a key in blocks of twelve bytes: as 32-bit words where the key is at a
multiple of four, as 16-bit words where it is at a multiple of two, and byte by byte elsewhere. The last words are read
whole, beyond the end of the key, and what is beyond it is masked off.
-/

namespace BiProject.Hash
set_option autoImplicit false

/-- The internal state. -/
@[ext] structure State where
  a : UInt32
  b : UInt32
  c : UInt32
deriving DecidableEq

def rot (x k : UInt32) : UInt32 := (x <<< k) ^^^ (x >>> (32 - k))

def mix (s : State) : State :=
  let a := s.a - s.c
  let a := a ^^^ rot s.c 4
  let c := s.c + s.b
  let b := s.b - a
  let b := b ^^^ rot a 6
  let a := a + c
  let c := c - b
  let c := c ^^^ rot b 8
  let b := b + a
  let a := a - c
  let a := a ^^^ rot c 16
  let c := c + b
  let b := b - a
  let b := b ^^^ rot a 19
  let a := a + c
  let c := c - b
  let c := c ^^^ rot b 4
  let b := b + a
  ⟨a, b, c⟩

def final (s : State) : State :=
  let c := s.c ^^^ s.b
  let c := c - rot s.b 14
  let a := s.a ^^^ c
  let a := a - rot c 11
  let b := s.b ^^^ a
  let b := b - rot a 25
  let c := c ^^^ b
  let c := c - rot b 16
  let a := a ^^^ c
  let a := a - rot c 4
  let b := b ^^^ a
  let b := b - rot a 14
  let c := c ^^^ b
  let c := c - rot b 24
  ⟨a, b, c⟩

def State.add (s w : State) : State := ⟨s.a + w.a, s.b + w.b, s.c + w.c⟩

/-! ## Reading -/

/-- `HASH_LITTLE_ENDIAN` or `HASH_BIG_ENDIAN`. -/
inductive Endian where
  | little
  | big

/-- How far the byte at a place of a word is shifted. -/
def Endian.shift : Endian → Nat → UInt32
  | .little, 0 => 0
  | .little, 1 => 8
  | .little, 2 => 16
  | .little, _ => 24
  | .big, 0 => 24
  | .big, 1 => 16
  | .big, 2 => 8
  | .big, _ => 0

abbrev Mem := Nat → UInt8

/-- A load of a byte, as a `uint32_t`. -/
def load8 (m : Mem) (p : Nat) : UInt32 := (m p).toUInt32

/-- A load of a `uint16_t`, with the low byte first. -/
def load16 (m : Mem) (p : Nat) : UInt32 := UInt32.ofNat ((m p).toNat + (m (p + 1)).toNat * 2 ^ 8)

/-- A load of a `uint32_t`. -/
def load32 (e : Endian) (m : Mem) (p : Nat) : UInt32 :=
  match e with
  | .little => UInt32.ofNat ((m p).toNat + (m (p + 1)).toNat * 2 ^ 8 + (m (p + 2)).toNat * 2 ^ 16 + (m (p + 3)).toNat * 2 ^ 24)
  | .big => UInt32.ofNat ((m p).toNat * 2 ^ 24 + (m (p + 1)).toNat * 2 ^ 16 + (m (p + 2)).toNat * 2 ^ 8 + (m (p + 3)).toNat)

/-! ## 32-bit words -/

/-- All but the last block. -/
def wordBlocks (e : Endian) (m : Mem) (k length : Nat) (s : State) : State × Nat × Nat :=
  if 12 < length then
    wordBlocks e m (k + 12) (length - 12) (mix ⟨s.a + load32 e m k, s.b + load32 e m (k + 4), s.c + load32 e m (k + 8)⟩)
  else (s, k, length)
termination_by length

/-- The masks that keep the first bytes of a word. -/
def Endian.mask : Endian → Nat → UInt32
  | .little, 3 => 0xffffff
  | .little, 2 => 0xffff
  | .little, _ => 0xff
  | .big, 3 => 0xffffff00
  | .big, 2 => 0xffff0000
  | .big, _ => 0xff000000

/-- The last block; a key without bytes returns at once. -/
def lastWords (e : Endian) (m : Mem) (k : Nat) (s : State) : Nat → Option State
  | 12 => some ⟨s.a + load32 e m k, s.b + load32 e m (k + 4), s.c + load32 e m (k + 8)⟩
  | 11 => some ⟨s.a + load32 e m k, s.b + load32 e m (k + 4), s.c + (load32 e m (k + 8) &&& e.mask 3)⟩
  | 10 => some ⟨s.a + load32 e m k, s.b + load32 e m (k + 4), s.c + (load32 e m (k + 8) &&& e.mask 2)⟩
  | 9 => some ⟨s.a + load32 e m k, s.b + load32 e m (k + 4), s.c + (load32 e m (k + 8) &&& e.mask 1)⟩
  | 8 => some ⟨s.a + load32 e m k, s.b + load32 e m (k + 4), s.c⟩
  | 7 => some ⟨s.a + load32 e m k, s.b + (load32 e m (k + 4) &&& e.mask 3), s.c⟩
  | 6 => some ⟨s.a + load32 e m k, s.b + (load32 e m (k + 4) &&& e.mask 2), s.c⟩
  | 5 => some ⟨s.a + load32 e m k, s.b + (load32 e m (k + 4) &&& e.mask 1), s.c⟩
  | 4 => some ⟨s.a + load32 e m k, s.b, s.c⟩
  | 3 => some ⟨s.a + (load32 e m k &&& e.mask 3), s.b, s.c⟩
  | 2 => some ⟨s.a + (load32 e m k &&& e.mask 2), s.b, s.c⟩
  | 1 => some ⟨s.a + (load32 e m k &&& e.mask 1), s.b, s.c⟩
  | 0 => none
  | _ => some s

/-! ## 16-bit words -/

def halfBlocks (m : Mem) (k length : Nat) (s : State) : State × Nat × Nat :=
  if 12 < length then
    halfBlocks m (k + 12) (length - 12) (mix ⟨s.a + (load16 m k + load16 m (k + 2) <<< 16),
      s.b + (load16 m (k + 4) + load16 m (k + 6) <<< 16), s.c + (load16 m (k + 8) + load16 m (k + 10) <<< 16)⟩)
  else (s, k, length)
termination_by length

def lastHalves (m : Mem) (k : Nat) (s : State) : Nat → Option State
  | 12 => some ⟨s.a + (load16 m k + load16 m (k + 2) <<< 16), s.b + (load16 m (k + 4) + load16 m (k + 6) <<< 16),
      s.c + (load16 m (k + 8) + load16 m (k + 10) <<< 16)⟩
  | 11 => some ⟨s.a + (load16 m k + load16 m (k + 2) <<< 16), s.b + (load16 m (k + 4) + load16 m (k + 6) <<< 16),
      s.c + load8 m (k + 10) <<< 16 + load16 m (k + 8)⟩
  | 10 => some ⟨s.a + (load16 m k + load16 m (k + 2) <<< 16), s.b + (load16 m (k + 4) + load16 m (k + 6) <<< 16),
      s.c + load16 m (k + 8)⟩
  | 9 => some ⟨s.a + (load16 m k + load16 m (k + 2) <<< 16), s.b + (load16 m (k + 4) + load16 m (k + 6) <<< 16), s.c + load8 m (k + 8)⟩
  | 8 => some ⟨s.a + (load16 m k + load16 m (k + 2) <<< 16), s.b + (load16 m (k + 4) + load16 m (k + 6) <<< 16), s.c⟩
  | 7 => some ⟨s.a + (load16 m k + load16 m (k + 2) <<< 16), s.b + load8 m (k + 6) <<< 16 + load16 m (k + 4), s.c⟩
  | 6 => some ⟨s.a + (load16 m k + load16 m (k + 2) <<< 16), s.b + load16 m (k + 4), s.c⟩
  | 5 => some ⟨s.a + (load16 m k + load16 m (k + 2) <<< 16), s.b + load8 m (k + 4), s.c⟩
  | 4 => some ⟨s.a + (load16 m k + load16 m (k + 2) <<< 16), s.b, s.c⟩
  | 3 => some ⟨s.a + load8 m (k + 2) <<< 16 + load16 m k, s.b, s.c⟩
  | 2 => some ⟨s.a + load16 m k, s.b, s.c⟩
  | 1 => some ⟨s.a + load8 m k, s.b, s.c⟩
  | 0 => none
  | _ => some s

/-! ## Bytes -/

/-- A byte of a word at its place. -/
def byteAt (e : Endian) (m : Mem) (k j : Nat) : UInt32 := load8 m (k + j) <<< e.shift (j % 4)

def byteBlocks (e : Endian) (m : Mem) (k length : Nat) (s : State) : State × Nat × Nat :=
  if 12 < length then
    byteBlocks e m (k + 12) (length - 12) (mix
      ⟨s.a + byteAt e m k 0 + byteAt e m k 1 + byteAt e m k 2 + byteAt e m k 3,
        s.b + byteAt e m k 4 + byteAt e m k 5 + byteAt e m k 6 + byteAt e m k 7,
        s.c + byteAt e m k 8 + byteAt e m k 9 + byteAt e m k 10 + byteAt e m k 11⟩)
  else (s, k, length)
termination_by length

/-- The last block, from the case of its length on down: all the cases fall through. -/
def lastBytes (e : Endian) (m : Mem) (k : Nat) (s : State) (length : Nat) : Option State :=
  let from' (j : Nat) (x : UInt32) : UInt32 := if j < length then x + byteAt e m k j else x
  if length = 0 then none
  else some ⟨from' 0 (from' 1 (from' 2 (from' 3 s.a))), from' 4 (from' 5 (from' 6 (from' 7 s.b))), from' 8 (from' 9 (from' 10 (from' 11 s.c)))⟩

/-! ## The function -/

/-- The state before the first block. -/
def start (length : Nat) : State :=
  let x := 0xdeadbeef + UInt32.ofNat length + 0
  ⟨x, x, x⟩

/-- The end of the function. -/
def finish (s : State) : Option State → State
  | some s => final s
  | none => s

/-- The state in which the function for machines with the low byte first returns. -/
def jenkinsState (m : Mem) (key length : Nat) : State :=
  if key &&& 0x3 = 0 then
    let (s, k, n) := wordBlocks .little m key length (start length)
    finish s (lastWords .little m k s n)
  else if key &&& 0x1 = 0 then
    let (s, k, n) := halfBlocks m key length (start length)
    finish s (lastHalves m k s n)
  else
    let (s, k, n) := byteBlocks .little m key length (start length)
    finish s (lastBytes .little m k s n)

/-- The same for those with the high byte first. -/
def jenkinsStateBig (m : Mem) (key length : Nat) : State :=
  if key &&& 0x3 = 0 then
    let (s, k, n) := wordBlocks .big m key length (start length)
    finish s (lastWords .big m k s n)
  else
    let (s, k, n) := byteBlocks .big m key length (start length)
    finish s (lastBytes .big m k s n)

def jenkinsHash (m : Mem) (key length : Nat) : UInt32 := (jenkinsState m key length).c

def jenkinsHashBig (m : Mem) (key length : Nat) : UInt32 := (jenkinsStateBig m key length).c

end BiProject.Hash
