import Mathlib.Data.List.Basic
import Mathlib.Tactic

/-! Little-endian 64-bit words in byte buffers: writing a word array, and reading it back either
by position (a pointer overlaid on the buffer) or by consuming bytes from the front. -/
namespace ByteWords

/-- The `k` low-order bytes of `n`, least significant first. -/
def bytesOf : ℕ → ℕ → List UInt8
  | 0, _ => []
  | k + 1, n => UInt8.ofNat n :: bytesOf k (n / 256)

def natOf : List UInt8 → ℕ
  | [] => 0
  | b :: bs => b.toNat + 256 * natOf bs

@[simp] theorem bytesOf_length (k n : ℕ) : (bytesOf k n).length = k := by
  induction k generalizing n with
  | zero => rfl
  | succ k ih => simp only [bytesOf, List.length_cons, ih]

theorem natOf_bytesOf (k n : ℕ) : natOf (bytesOf k n) = n % 256 ^ k := by
  induction k generalizing n with
  | zero => simp [bytesOf, natOf, Nat.mod_one]
  | succ k ih =>
    have hb : (UInt8.ofNat n).toNat = n % 256 := by simp
    rw [bytesOf, natOf, ih, hb, pow_succ', Nat.mod_mul]

def wordBytes (w : UInt64) : List UInt8 := bytesOf 8 w.toNat

@[simp] theorem wordBytes_length (w : UInt64) : (wordBytes w).length = 8 := bytesOf_length 8 _

theorem natOf_wordBytes (w : UInt64) : natOf (wordBytes w) = w.toNat := by
  rw [wordBytes, natOf_bytesOf]
  exact Nat.mod_eq_of_lt (by simpa using w.toNat_lt)

/-- The bytes of a word array, word after word. -/
def encodeWords (ws : List UInt64) : List UInt8 := ws.flatMap wordBytes

@[simp] theorem encodeWords_cons (w : UInt64) (ws : List UInt64) :
    encodeWords (w :: ws) = wordBytes w ++ encodeWords ws := by
  simp [encodeWords]

@[simp] theorem encodeWords_append (ws vs : List UInt64) :
    encodeWords (ws ++ vs) = encodeWords ws ++ encodeWords vs := by
  simp [encodeWords]

@[simp] theorem encodeWords_length (ws : List UInt64) :
    (encodeWords ws).length = 8 * ws.length := by
  induction ws with
  | nil => rfl
  | cons w ws ih =>
    rw [encodeWords_cons, List.length_append, wordBytes_length, ih, List.length_cons]
    ring

/-- The word stored at a byte offset, as a `uint64_t*` overlaid on the buffer reads it. -/
def wordAt (buffer : List UInt8) (offset : ℕ) : UInt64 :=
  UInt64.ofNat (natOf ((buffer.drop offset).take 8))

theorem wordAt_wordBytes (w : UInt64) (rest : List UInt8) : wordAt (wordBytes w ++ rest) 0 = w := by
  have ht : ((wordBytes w ++ rest).drop 0).take 8 = wordBytes w := by
    rw [List.drop_zero]
    exact List.take_left' (wordBytes_length w)
  rw [wordAt, ht, natOf_wordBytes, UInt64.ofNat_toNat]

/-- Skipping whole words of an encoded array moves the overlay by eight bytes a word. -/
theorem wordAt_encodeWords_append (ws vs : List UInt64) (offset : ℕ) :
    wordAt (encodeWords (ws ++ vs)) (8 * ws.length + offset) =
      wordAt (encodeWords vs) offset := by
  rw [encodeWords_append, wordAt, wordAt, ← encodeWords_length, List.drop_length_add_append]

theorem wordAt_encodeWords {ws : List UInt64} {i : ℕ} {w : UInt64} (h : ws[i]? = some w) :
    wordAt (encodeWords ws) (8 * i) = w := by
  induction ws generalizing i with
  | nil => simp at h
  | cons v ws ih =>
    cases i with
    | zero =>
      have hv : v = w := by simpa using h
      rw [encodeWords_cons, Nat.mul_zero, wordAt_wordBytes, hv]
    | succ i =>
      have hstep := wordAt_encodeWords_append [v] ws (8 * i)
      simp only [List.singleton_append, List.length_singleton, Nat.mul_one] at hstep
      rw [Nat.mul_succ, Nat.add_comm, hstep]
      exact ih (by simpa using h)

/-- Consume one word from the front of a buffer; `none` when fewer than eight bytes are left. -/
def takeWord (buffer : List UInt8) : Option (UInt64 × List UInt8) :=
  if 8 ≤ buffer.length then some (wordAt buffer 0, buffer.drop 8) else none

@[simp] theorem takeWord_wordBytes (w : UInt64) (rest : List UInt8) :
    takeWord (wordBytes w ++ rest) = some (w, rest) := by
  have hl : 8 ≤ (wordBytes w ++ rest).length := by simp
  rw [takeWord, if_pos hl, wordAt_wordBytes, List.drop_left' (wordBytes_length w)]

/-- Consume `n` words. -/
def takeWords : ℕ → List UInt8 → Option (List UInt64 × List UInt8)
  | 0, buffer => some ([], buffer)
  | n + 1, buffer => do
      let (w, rest) ← takeWord buffer
      let (ws, rest) ← takeWords n rest
      return (w :: ws, rest)

@[simp] theorem takeWords_encodeWords (ws : List UInt64) (rest : List UInt8) :
    takeWords ws.length (encodeWords ws ++ rest) = some (ws, rest) := by
  induction ws with
  | nil => rfl
  | cons w ws ih =>
    simp only [List.length_cons, takeWords, encodeWords_cons, List.append_assoc,
      takeWord_wordBytes, Option.bind_eq_bind, Option.bind_some, ih, Option.pure_def]

end ByteWords
