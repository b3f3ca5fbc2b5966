import Mathlib.Data.List.TakeWhile
import Mathlib.Data.UInt
import Mathlib.Tactic

/-! Text as lists of characters: the decimal numerals of 64-bit numbers, and the streams that lines
and numbers are read from. -/
namespace TextStreams

def digits (n : UInt64) : List Char := Nat.toDigits 10 n.toNat

theorem isDigit_of_mem_digits {n : UInt64} {c : Char} (hc : c ∈ digits n) : c.isDigit = true :=
  Nat.isDigit_of_mem_toDigits (by decide) (by decide) hc

theorem digits_ne_nil (n : UInt64) : digits n ≠ [] := Nat.toDigits_ne_nil

@[simp] theorem ofDigitChars_digits (n : UInt64) : Nat.ofDigitChars 10 (digits n) 0 = n.toNat :=
  Nat.ofDigitChars_ten_toDigits

/-- White space in the C locale. -/
def isSpace (c : Char) : Bool := c = ' ' || ('\t' ≤ c && c ≤ '\r')

theorem not_isSpace_of_isDigit {c : Char} (hc : c.isDigit = true) : isSpace c = false := by
  have hc : '0' ≤ c := by
    have hlow : c.val ≥ '0'.val ∧ c.val ≤ '9'.val := by simpa [Char.isDigit] using hc
    exact hlow.1
  have hspace : c ≠ ' ' := by
    rintro rfl
    exact absurd hc (by decide)
  have hreturn : ¬ c ≤ '\r' := fun h => absurd (Char.le_trans hc h) (by decide)
  simp [isSpace, hspace, hreturn]

/-- What is left of a stream, and the bits of its state. -/
structure InputStream where
  rest : List Char
  eof : Bool
  fail : Bool
  deriving DecidableEq, Repr

namespace InputStream
variable {s s' : InputStream} {line text spaces sign ds rest : List Char}

def ofText (text : List Char) : InputStream := ⟨text, false, false⟩

def good (s : InputStream) : Bool := !s.eof && !s.fail

/-- `std::getline`: the line without its end, or `none` when the stream fails. -/
def getline (s : InputStream) : Option (List Char) × InputStream :=
  if ¬ s.good then (none, { s with fail := true })
  else if s.rest = [] then (none, ⟨[], true, true⟩)
  else
    match s.rest.dropWhile (· ≠ '\n') with
    | [] => (some s.rest, ⟨[], true, false⟩)
    | _ :: rest => (some (s.rest.takeWhile (· ≠ '\n')), ⟨rest, false, false⟩)

/-- `peek`; at the end of the stream it sets the state. -/
def peek (s : InputStream) : Option Char × InputStream :=
  if ¬ s.good then (none, s)
  else (s.rest.head?, { s with eof := s.rest.isEmpty })

/-- `ignore` up to the end of the line. -/
def ignoreLine (s : InputStream) : InputStream :=
  if ¬ s.good then { s with fail := true }
  else
    match s.rest.dropWhile (· ≠ '\n') with
    | [] => ⟨[], true, false⟩
    | _ :: rest => ⟨rest, false, false⟩

/-- The digits at the front of a text. What is no numeral stores 0, and a numeral out of range the
largest number. -/
def readDigits (negative : Bool) (text : List Char) : Option UInt64 × InputStream :=
  let ds := text.takeWhile Char.isDigit
  let rest := text.dropWhile Char.isDigit
  let n := Nat.ofDigitChars 10 ds 0
  if ds = [] then (some 0, ⟨rest, rest.isEmpty, true⟩)
  else if 2 ^ 64 ≤ n then (some (UInt64.ofNat (2 ^ 64 - 1)), ⟨rest, rest.isEmpty, true⟩)
  else (some (if negative then -UInt64.ofNat n else UInt64.ofNat n), ⟨rest, rest.isEmpty, false⟩)

/-- `>>` into an unsigned 64-bit number: what is stored, or `none` when the variable is left as it
was. -/
def extract (s : InputStream) : Option UInt64 × InputStream :=
  if ¬ s.good then (none, { s with fail := true })
  else
    match s.rest.dropWhile isSpace with
    | [] => (none, ⟨[], true, true⟩)
    | c :: cs =>
      if c = '-' then readDigits true cs
      else if c = '+' then readDigits false cs
      else readDigits false (c :: cs)

theorem takeWhile_dropWhile_append {p : Char → Bool} {l r : List Char} (hl : ∀ c ∈ l, p c = true)
    (hr : ∀ c ∈ r.head?, p c = false) :
    (l ++ r).takeWhile p = l ∧ (l ++ r).dropWhile p = r := by
  rw [List.takeWhile_append_of_pos hl, List.dropWhile_append_of_pos hl]
  cases r with
  | nil => simp
  | cons c r => simp [hr c rfl]

theorem getline_line (hline : '\n' ∉ line) (rest : List Char) :
    (ofText (line ++ '\n' :: rest)).getline = (some line, ofText rest) := by
  have hspan := takeWhile_dropWhile_append (p := fun c => c ≠ '\n') (l := line) (r := '\n' :: rest)
    (fun c hc => decide_eq_true fun h => hline (h ▸ hc)) (by simp)
  unfold getline ofText good
  rw [if_neg (by simp), if_neg (by simp)]
  dsimp only
  rw [hspan.1, hspan.2]

/-- A number in range is read up to its last digit. -/
theorem readDigits_numeral (negative : Bool) (hds : ∀ c ∈ ds, c.isDigit = true) (hne : ds ≠ [])
    (hlt : Nat.ofDigitChars 10 ds 0 < 2 ^ 64) (hrest : ∀ c ∈ rest.head?, c.isDigit = false) :
    readDigits negative (ds ++ rest) =
      (some (if negative then -UInt64.ofNat (Nat.ofDigitChars 10 ds 0)
        else UInt64.ofNat (Nat.ofDigitChars 10 ds 0)), ⟨rest, rest.isEmpty, false⟩) := by
  obtain ⟨htake, hdrop⟩ := takeWhile_dropWhile_append hds hrest
  unfold readDigits
  dsimp only
  rw [htake, hdrop, if_neg hne, if_neg (not_le.mpr hlt)]

/-- What may stand in front of the digits of a number. -/
def IsSign (sign : List Char) : Prop := sign = [] ∨ sign = ['+'] ∨ sign = ['-']

/-- White space and a sign are skipped. -/
theorem extract_sign (hspaces : ∀ c ∈ spaces, isSpace c = true) (hsign : IsSign sign)
    (hne : sign ++ text ≠ [])
    (hstop : sign = [] → ∀ c ∈ text.head?, isSpace c = false ∧ c ≠ '-' ∧ c ≠ '+') :
    (ofText (spaces ++ (sign ++ text))).extract = readDigits (sign = ['-']) text := by
  have hskip {c : Char} {cs : List Char} (hc : isSpace c = false) :
      (spaces ++ c :: cs).dropWhile isSpace = c :: cs :=
    (takeWhile_dropWhile_append hspaces (by simpa using hc)).2
  unfold extract ofText good
  rw [if_neg (by simp)]
  dsimp only
  rcases hsign with rfl | rfl | rfl
  · obtain ⟨c, cs, rfl⟩ := List.exists_cons_of_ne_nil hne
    obtain ⟨hspace, hminus, hplus⟩ := hstop rfl c rfl
    rw [List.nil_append, hskip hspace]
    dsimp only
    rw [if_neg hminus, if_neg hplus]
    rfl
  · rw [List.singleton_append, hskip (by decide)]
    rfl
  · rw [List.singleton_append, hskip (by decide)]
    rfl

/-- A digit is neither white space nor a sign. -/
theorem digit_stops (hds : ∀ c ∈ ds, c.isDigit = true) (hne : sign ++ ds ≠ []) (rest : List Char) :
    sign = [] → ∀ c ∈ (ds ++ rest).head?, isSpace c = false ∧ c ≠ '-' ∧ c ≠ '+' := by
  rintro rfl c hc
  obtain ⟨d, ds, rfl⟩ := List.exists_cons_of_ne_nil hne
  obtain rfl : d = c := by simpa using hc
  have hdigit := hds d List.mem_cons_self
  refine ⟨not_isSpace_of_isDigit hdigit, ?_, ?_⟩
  · rintro rfl
    exact absurd hdigit (by decide)
  · rintro rfl
    exact absurd hdigit (by decide)

/-- A numeral ends where no digit follows. -/
theorem extract_numeral (hspaces : ∀ c ∈ spaces, isSpace c = true)
    (hds : ∀ c ∈ ds, c.isDigit = true) (hne : ds ≠ []) (hlt : Nat.ofDigitChars 10 ds 0 < 2 ^ 64)
    (hrest : ∀ c ∈ rest.head?, c.isDigit = false) :
    (ofText (spaces ++ (ds ++ rest))).extract =
      (some (UInt64.ofNat (Nat.ofDigitChars 10 ds 0)), ⟨rest, rest.isEmpty, false⟩) := by
  have hskip := extract_sign hspaces (Or.inl rfl) (by simp [hne])
    (digit_stops hds (show [] ++ ds ≠ [] from hne) rest)
  exact hskip.trans (readDigits_numeral false hds hne hlt hrest)

theorem extract_digits (n : UInt64) (spaces rest : List Char)
    (hspaces : ∀ c ∈ spaces, isSpace c = true) (hrest : ∀ c ∈ rest.head?, c.isDigit = false) :
    (ofText (spaces ++ (digits n ++ rest))).extract = (some n, ⟨rest, rest.isEmpty, false⟩) := by
  have hread := extract_numeral hspaces (fun c hc => isDigit_of_mem_digits (n := n) hc)
    (digits_ne_nil n) (by rw [ofDigitChars_digits]; exact n.toNat_lt) hrest
  rwa [ofDigitChars_digits, UInt64.ofNat_toNat] at hread

theorem extract_spaces (spaces : List Char) (hspaces : ∀ c ∈ spaces, isSpace c = true) :
    (ofText spaces).extract = (none, ⟨[], true, true⟩) := by
  have hskip : spaces.dropWhile isSpace = [] := List.dropWhile_eq_nil_iff.mpr hspaces
  unfold extract ofText good
  rw [if_neg (by simp)]
  dsimp only
  rw [hskip]

/-- A stream that has failed stays so. -/
theorem not_fail_of_extract (h : s.extract.2.fail = false) : s.fail = false := by
  unfold extract at h
  split_ifs at h with hgood
  have hgood : s.eof = false ∧ s.fail = false := by simpa [good] using hgood
  exact hgood.2

/-- Discarding a line takes something from a stream that has something left. -/
theorem ignoreLine_length_lt (hgood : s.good = true) (hrest : s.rest ≠ []) :
    s.ignoreLine.rest.length < s.rest.length := by
  have hpos := List.length_pos_of_ne_nil hrest
  have hle := (List.dropWhile_suffix (l := s.rest) fun c => c ≠ '\n').length_le
  unfold ignoreLine
  rw [if_neg (by simp [hgood])]
  split
  · exact hpos
  · rename_i heq
    rw [heq, List.length_cons] at hle
    exact hle

theorem readDigits_length_lt {negative : Bool} {text : List Char}
    (h : (readDigits negative text).2.fail = false) :
    (readDigits negative text).2.rest.length < text.length := by
  have hsplit := congrArg List.length (List.takeWhile_append_dropWhile (p := Char.isDigit) (l := text))
  rw [List.length_append] at hsplit
  unfold readDigits at h ⊢
  dsimp only at h ⊢
  split_ifs at h ⊢ with hds
  all_goals
    have hpos := List.length_pos_of_ne_nil hds
    show (text.dropWhile Char.isDigit).length < _
    omega

/-- So does a number that is read. -/
theorem extract_length_lt (h : s.extract.2.fail = false) :
    s.extract.2.rest.length < s.rest.length := by
  have hspace := (List.dropWhile_suffix (l := s.rest) isSpace).length_le
  unfold extract at h ⊢
  by_cases hgood : ¬ s.good
  · rw [if_pos hgood] at h
    contradiction
  · rw [if_neg hgood] at h ⊢
    rcases heq : s.rest.dropWhile isSpace with - | ⟨c, cs⟩
    · rw [heq] at h
      contradiction
    · rw [heq, List.length_cons] at hspace
      rw [heq] at h
      dsimp only at h ⊢
      split_ifs at h ⊢
      · exact (readDigits_length_lt h).trans hspace
      · exact (readDigits_length_lt h).trans hspace
      · exact (readDigits_length_lt h).trans_le hspace

theorem extract_progress {n : UInt64} (h : s.extract = (some n, s')) :
    s.fail = false ∧ (s'.fail = false → s'.rest.length < s.rest.length) := by
  have hgood : s.good = true := by
    by_contra hgood
    rw [extract, if_pos hgood] at h
    exact Option.some_ne_none n (congrArg Prod.fst h).symm
  obtain ⟨-, hfail⟩ : s.eof = false ∧ s.fail = false := by simpa [good] using hgood
  refine ⟨hfail, fun hfail' => ?_⟩
  have hlt := extract_length_lt (s := s) (by rwa [h])
  rwa [h] at hlt

/-- At the end of a stream `getline` notes that. -/
theorem getline_none (hs : s.fail = true → s.eof = true) (h : s.getline = (none, s')) :
    s'.eof = true := by
  unfold getline at h
  split at h
  · rename_i hgood
    rw [← (Prod.mk.inj h).2]
    by_contra heof
    have heof : s.eof = false := Bool.eq_false_of_not_eq_true heof
    have hfail : s.fail = false := Bool.eq_false_of_not_eq_true fun h => by simp [hs h] at heof
    exact hgood (by simp [good, heof, hfail])
  · split at h
    · rw [← (Prod.mk.inj h).2]
    · split at h
      · exact absurd (Prod.mk.inj h).1 (Option.some_ne_none _)
      · exact absurd (Prod.mk.inj h).1 (Option.some_ne_none _)

theorem getline_some (h : s.getline = (some line, s')) :
    s'.fail = false ∧ s'.rest.length < s.rest.length := by
  have hle := (List.dropWhile_suffix (l := s.rest) fun c => c ≠ '\n').length_le
  unfold getline at h
  split at h
  · exact absurd (Prod.mk.inj h).1.symm (Option.some_ne_none line)
  split at h
  · exact absurd (Prod.mk.inj h).1.symm (Option.some_ne_none line)
  · rename_i hrest
    have hpos := List.length_pos_of_ne_nil hrest
    split at h
    · rw [← (Prod.mk.inj h).2]
      exact ⟨rfl, hpos⟩
    · rename_i heq
      rw [heq, List.length_cons] at hle
      rw [← (Prod.mk.inj h).2]
      exact ⟨rfl, hle⟩

end InputStream

section NumberLines

/-- Numbers, each on a line of its own. -/
def numberLines (ns : List ℕ) : List Char := ns.flatMap fun n => Nat.toDigits 10 n ++ ['\n']

@[simp] theorem numberLines_cons (n : ℕ) (ns : List ℕ) :
    numberLines (n :: ns) = Nat.toDigits 10 n ++ '\n' :: numberLines ns := by
  simp [numberLines]

/-- The numbers can be told from the text. -/
theorem numberLines_injective : Function.Injective numberLines := by
  have hspan (n : ℕ) (rest : List Char) := InputStream.takeWhile_dropWhile_append
    (p := Char.isDigit) (l := Nat.toDigits 10 n) (r := '\n' :: rest)
    (fun c hc => Nat.isDigit_of_mem_toDigits (by decide) (by decide) hc) (by simp)
  intro ms
  induction ms with
  | nil =>
    intro ns h
    cases ns with
    | nil => rfl
    | cons n ns => simp [numberLines] at h
  | cons m ms ih =>
    intro ns h
    cases ns with
    | nil => simp [numberLines] at h
    | cons n ns =>
      rw [numberLines_cons, numberLines_cons] at h
      have hdigits : Nat.toDigits 10 m = Nat.toDigits 10 n := by
        rw [← (hspan m (numberLines ms)).1, ← (hspan n (numberLines ns)).1, h]
      have hrest : '\n' :: numberLines ms = '\n' :: numberLines ns := by
        rw [← (hspan m (numberLines ms)).2, ← (hspan n (numberLines ns)).2, h]
      have hm : m = n := by
        rw [← Nat.ofDigitChars_ten_toDigits (n := m), hdigits, Nat.ofDigitChars_ten_toDigits]
      rw [hm, ih (List.cons.inj hrest).2]

theorem splitOn_numberLines (ns : List ℕ) :
    (numberLines ns).splitOn '\n' = ns.map (Nat.toDigits 10) ++ [[]] := by
  induction ns with
  | nil => rfl
  | cons n ns ih =>
    have hdigits : '\n' ∉ Nat.toDigits 10 n := fun h =>
      absurd (Nat.isDigit_of_mem_toDigits (by decide) (by decide) h) (by decide)
    rw [numberLines_cons, List.splitOn_append_cons_self_of_not_mem hdigits, ih, List.map_cons,
      List.cons_append]

end NumberLines

end TextStreams
