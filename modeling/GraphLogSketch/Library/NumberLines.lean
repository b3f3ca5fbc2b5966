import GraphLogSketch.Library.TextStreams

/-! The loop that reads numbers from a line until the end of the line is noticed. A variable that an
extraction leaves as it was has an arbitrary value, and a stream that has failed in front of its end
never notices it. -/
namespace TextStreams
open InputStream
variable {α : Type*} {text spaces sign ds rest : List Char}

/-- `while (!s.eof()) { s >> tmp; ... }`, for so many turns at most; `tmp` is `junk` at a turn that does
not store anything. -/
def untilEof (body : UInt64 → α → α) (junk : ℕ → UInt64) : ℕ → ℕ → InputStream → α → Option α
  | 0, _, s, a => if s.eof then some a else none
  | fuel + 1, turn, s, a =>
    if s.eof then some a
    else untilEof body junk fuel (turn + 1) s.extract.2 (body (s.extract.1.getD (junk turn)) a)

/-- Texts of numerals. All but the last are in range; the last may be out of range or a mere sign, or
missing. -/
inductive Numerals : List Char → Prop
  | last {spaces sign ds : List Char} (hspaces : ∀ c ∈ spaces, isSpace c = true)
      (hsign : IsSign sign) (hds : ∀ c ∈ ds, c.isDigit = true) : Numerals (spaces ++ (sign ++ ds))
  | more {spaces sign ds rest : List Char} (hspaces : ∀ c ∈ spaces, isSpace c = true)
      (hsign : IsSign sign) (hds : ∀ c ∈ ds, c.isDigit = true) (hne : ds ≠ [])
      (hlt : Nat.ofDigitChars 10 ds 0 < 2 ^ 64) (hrest : ∀ c ∈ rest.head?, c.isDigit = false)
      (h : Numerals rest) : Numerals (spaces ++ (sign ++ (ds ++ rest)))

theorem numerals_spaces (hspaces : ∀ c ∈ spaces, isSpace c = true) : Numerals spaces := by
  have hlast := Numerals.last hspaces (Or.inl rfl)
    fun c (hc : c ∈ ([] : List Char)) => absurd hc List.not_mem_nil
  rwa [List.append_nil, List.append_nil] at hlast

section Extract

/-- A text is split where a kind of character ends. -/
theorem exists_span (p : Char → Bool) (text : List Char) : ∃ l r : List Char, text = l ++ r ∧
    (∀ c ∈ l, p c = true) ∧ ∀ c ∈ r.head?, p c = false := by
  refine ⟨text.takeWhile p, text.dropWhile p, List.takeWhile_append_dropWhile.symm,
    fun c hc => List.mem_takeWhile_imp hc, fun c hc => ?_⟩
  have hhead := List.head?_dropWhile_not p text
  rw [Option.mem_def.mp hc] at hhead
  exact hhead

/-- What is no number in range is a failure. -/
theorem readDigits_fail (negative : Bool) (hds : ∀ c ∈ ds, c.isDigit = true)
    (hrest : ∀ c ∈ rest.head?, c.isDigit = false)
    (h : ds = [] ∨ 2 ^ 64 ≤ Nat.ofDigitChars 10 ds 0) :
    (readDigits negative (ds ++ rest)).2 = ⟨rest, rest.isEmpty, true⟩ := by
  obtain ⟨htake, hdrop⟩ := takeWhile_dropWhile_append hds hrest
  unfold readDigits
  dsimp only
  rw [htake, hdrop]
  by_cases hnil : ds = []
  · rw [if_pos hnil]
  · rw [if_neg hnil, if_pos (h.resolve_left hnil)]

theorem readDigits_eof (negative : Bool) (hds : ∀ c ∈ ds, c.isDigit = true) :
    (readDigits negative ds).2.eof = true := by
  obtain ⟨htake, hdrop⟩ := takeWhile_dropWhile_append (r := []) hds (by simp)
  rw [List.append_nil] at htake hdrop
  unfold readDigits
  dsimp only
  rw [htake, hdrop]
  split_ifs <;> rfl

theorem extract_more (hspaces : ∀ c ∈ spaces, isSpace c = true) (hsign : IsSign sign)
    (hds : ∀ c ∈ ds, c.isDigit = true) (hne : ds ≠ []) (hlt : Nat.ofDigitChars 10 ds 0 < 2 ^ 64)
    (hrest : ∀ c ∈ rest.head?, c.isDigit = false) :
    (ofText (spaces ++ (sign ++ (ds ++ rest)))).extract.2 = ⟨rest, rest.isEmpty, false⟩ := by
  have hne' : sign ++ ds ≠ [] := List.append_ne_nil_of_right_ne_nil sign hne
  rw [extract_sign hspaces hsign (by simp [hne]) (digit_stops hds hne' rest),
    readDigits_numeral _ hds hne hlt hrest]

/-- The end of a line is noticed behind its last number, and where there is none. -/
theorem extract_last (hspaces : ∀ c ∈ spaces, isSpace c = true) (hsign : IsSign sign)
    (hds : ∀ c ∈ ds, c.isDigit = true) :
    (ofText (spaces ++ (sign ++ ds))).extract.2.eof = true := by
  by_cases hne : sign ++ ds = []
  · rw [hne, List.append_nil, extract_spaces spaces hspaces]
  · have hstop := digit_stops hds hne []
    rw [List.append_nil] at hstop
    rw [extract_sign hspaces hsign hne hstop]
    exact readDigits_eof _ hds

/-- Every text has white space, a sign and digits in front, as far as it has them. -/
theorem exists_split (text : List Char) : ∃ spaces sign ds rest : List Char,
    text = spaces ++ (sign ++ (ds ++ rest)) ∧ (∀ c ∈ spaces, isSpace c = true) ∧ IsSign sign ∧
      (∀ c ∈ ds, c.isDigit = true) ∧ (∀ c ∈ rest.head?, c.isDigit = false) ∧
      (sign = [] → ∀ c ∈ (ds ++ rest).head?, isSpace c = false ∧ c ≠ '-' ∧ c ≠ '+') := by
  obtain ⟨spaces, text, rfl, hspaces, hhead⟩ := exists_span isSpace text
  by_cases hminus : '-' ∈ text.head?
  · obtain ⟨cs, rfl⟩ := List.head?_eq_some_iff.mp hminus
    obtain ⟨ds, rest, rfl, hds, hrest⟩ := exists_span Char.isDigit cs
    exact ⟨spaces, ['-'], ds, rest, rfl, hspaces, Or.inr (Or.inr rfl), hds, hrest, by simp⟩
  by_cases hplus : '+' ∈ text.head?
  · obtain ⟨cs, rfl⟩ := List.head?_eq_some_iff.mp hplus
    obtain ⟨ds, rest, rfl, hds, hrest⟩ := exists_span Char.isDigit cs
    exact ⟨spaces, ['+'], ds, rest, rfl, hspaces, Or.inr (Or.inl rfl), hds, hrest, by simp⟩
  · obtain ⟨ds, rest, rfl, hds, hrest⟩ := exists_span Char.isDigit text
    refine ⟨spaces, [], ds, rest, rfl, hspaces, Or.inl rfl, hds, hrest, ?_⟩
    rintro - c hc
    exact ⟨hhead c hc, fun h => hminus (h ▸ hc), fun h => hplus (h ▸ hc)⟩

end Extract

section Loop
variable {body body' : UInt64 → α → α} {junk junk' : ℕ → UInt64} {s : InputStream}

theorem untilEof_eof (fuel turn : ℕ) (a : α) (h : s.eof = true) :
    untilEof body junk fuel turn s a = some a := by
  cases fuel <;> rw [untilEof, if_pos h]

theorem untilEof_step (fuel turn : ℕ) (a : α) (h : s.eof = false) :
    untilEof body junk (fuel + 1) turn s a = untilEof body junk fuel (turn + 1) s.extract.2
      (body (s.extract.1.getD (junk turn)) a) := by
  rw [untilEof, if_neg (by simp [h])]

/-- What is done with the numbers does not decide whether the loop ends. -/
theorem untilEof_isSome_congr {β : Type*} {body' : UInt64 → β → β} (fuel turn turn' : ℕ)
    (s : InputStream) (a : α) (a' : β) : (untilEof body junk fuel turn s a).isSome =
      (untilEof body' junk' fuel turn' s a').isSome := by
  induction fuel generalizing turn turn' s a a' with
  | zero =>
    unfold untilEof
    split_ifs <;> rfl
  | succ fuel ih =>
    unfold untilEof
    split_ifs
    · rfl
    · exact ih _ _ _ _ _

/-- A stream that has failed in front of its end stays as it is. -/
theorem untilEof_fail (fuel turn : ℕ) (a : α) (rest : List Char) :
    untilEof body junk fuel turn ⟨rest, false, true⟩ a = none := by
  induction fuel generalizing turn a with
  | zero => rfl
  | succ fuel ih =>
    rw [untilEof_step fuel turn a rfl]
    exact ih _ _

theorem numerals_of_untilEof (fuel turn : ℕ) (text : List Char) (a : α)
    (h : (untilEof body junk fuel turn (ofText text) a).isSome) : Numerals text := by
  induction fuel generalizing turn text a with
  | zero => exact absurd h (by simp [untilEof, ofText])
  | succ fuel ih =>
    rw [untilEof_step fuel turn a rfl] at h
    obtain ⟨spaces, sign, ds, rest, rfl, hspaces, hsign, hds, hrest, hstop⟩ := exists_split text
    by_cases hnil : rest = []
    · rw [hnil, List.append_nil]
      exact .last hspaces hsign hds
    have hempty : rest.isEmpty = false := by simpa using hnil
    by_cases hbad : ds = [] ∨ 2 ^ 64 ≤ Nat.ofDigitChars 10 ds 0
    · -- the loop does not get past what is no number
      rw [extract_sign hspaces hsign (by simp [hnil]) hstop, readDigits_fail _ hds hrest hbad,
        hempty, untilEof_fail] at h
      contradiction
    · obtain ⟨hne, hlt⟩ := not_or.mp hbad
      rw [extract_more hspaces hsign hds hne (not_le.mp hlt) hrest, hempty] at h
      exact .more hspaces hsign hds hne (not_le.mp hlt) hrest (ih _ rest _ h)

theorem untilEof_isSome (h : Numerals text) (fuel turn : ℕ) (a : α) (hfuel : text.length < fuel) :
    (untilEof body junk fuel turn (ofText text) a).isSome := by
  induction h generalizing fuel turn a with
  | last hspaces hsign hds =>
    obtain ⟨fuel, rfl⟩ := Nat.exists_eq_succ_of_ne_zero (Nat.ne_zero_of_lt hfuel)
    rw [untilEof_step fuel turn a rfl, untilEof_eof _ _ _ (extract_last hspaces hsign hds)]
    rfl
  | @more spaces sign ds rest hspaces hsign hds hne hlt hrest h ih =>
    obtain ⟨fuel, rfl⟩ := Nat.exists_eq_succ_of_ne_zero (Nat.ne_zero_of_lt hfuel)
    rw [untilEof_step fuel turn a rfl, extract_more hspaces hsign hds hne hlt hrest]
    by_cases hnil : rest = []
    · rw [hnil, untilEof_eof _ _ _ rfl]
      rfl
    · have hempty : rest.isEmpty = false := by simpa using hnil
      have hpos := List.length_pos_of_ne_nil hne
      rw [hempty]
      apply ih
      simp only [List.length_append] at hfuel
      omega

/-- Before the loop a first number is read. -/
theorem untilEof_first (fuel : ℕ) (line : List Char) (a : α) :
    (untilEof body junk (fuel + 1) 0 (ofText line) a).isSome =
      (untilEof body junk fuel 0 (ofText line).extract.2 a).isSome := by
  rw [untilEof_step fuel 0 a rfl]
  exact untilEof_isSome_congr ..

theorem numerals_of_rest (fuel : ℕ) (line : List Char) (a : α)
    (h : (untilEof body junk fuel 0 (ofText line).extract.2 a).isSome) : Numerals line :=
  numerals_of_untilEof (fuel + 1) 0 line a ((untilEof_first fuel line a).trans h)

theorem untilEof_rest_isSome {line : List Char} (h : Numerals line) (fuel : ℕ) (a : α)
    (hfuel : line.length ≤ fuel) : (untilEof body junk fuel 0 (ofText line).extract.2 a).isSome :=
  (untilEof_first fuel line a).symm.trans (untilEof_isSome h _ 0 a (Nat.lt_succ_of_le hfuel))

/-- With enough turns the loop ends on texts of numerals, and on no others it ends at all. -/
theorem untilEof_isSome_iff (line : List Char) (a : α) :
    (∃ fuel, (untilEof body junk fuel 0 (ofText line).extract.2 a).isSome) ↔ Numerals line :=
  ⟨fun ⟨fuel, h⟩ => numerals_of_rest fuel line a h,
    fun h => ⟨line.length, untilEof_rest_isSome h _ a le_rfl⟩⟩

end Loop

section Written

/-- A number as it is written, with any number of zeros in front. -/
structure Numeral where
  digits : List Char
  isDigit : ∀ c ∈ digits, c.isDigit = true
  ne_nil : digits ≠ []
  lt : Nat.ofDigitChars 10 digits 0 < 2 ^ 64

def Numeral.value (n : Numeral) : UInt64 := UInt64.ofNat (Nat.ofDigitChars 10 n.digits 0)

/-- The shortest numeral of a number. -/
def Numeral.ofUInt64 (n : UInt64) : Numeral where
  digits := TextStreams.digits n
  isDigit := fun _ hc => isDigit_of_mem_digits hc
  ne_nil := digits_ne_nil n
  lt := by rw [ofDigitChars_digits]; exact n.toNat_lt

@[simp] theorem Numeral.value_ofUInt64 (n : UInt64) : (ofUInt64 n).value = n := by
  rw [value, ofUInt64, ofDigitChars_digits, UInt64.ofNat_toNat]

/-- White space within a line. -/
structure Blanks where
  chars : List Char
  blank : ∀ c ∈ chars, isSpace c = true
  oneLine : '\n' ∉ chars

/-- Numbers, each with white space in front. -/
def numbersText (ns : List (Blanks × Numeral)) : List Char :=
  ns.flatMap fun n => n.1.chars ++ n.2.digits

theorem numbersText_cons (n : Blanks × Numeral) (ns : List (Blanks × Numeral))
    (rest : List Char) : numbersText (n :: ns) ++ rest =
      n.1.chars ++ (n.2.digits ++ (numbersText ns ++ rest)) := by
  simp [numbersText]

theorem Blanks.head_not_digit (b : Blanks) : ∀ c ∈ b.chars.head?, c.isDigit = false := by
  intro c hc
  by_contra hdigit
  have hspace := b.blank c (List.mem_of_mem_head? hc)
  rw [not_isSpace_of_isDigit (by simpa using hdigit)] at hspace
  contradiction

/-- Where numbers are kept apart, no digit follows one. -/
theorem numbersText_head {ns : List (Blanks × Numeral)} (hns : ∀ n ∈ ns, n.1.chars ≠ [])
    (trail : Blanks) : ∀ c ∈ (numbersText ns ++ trail.chars).head?, c.isDigit = false := by
  cases ns with
  | nil => exact trail.head_not_digit
  | cons n ns =>
    obtain ⟨c, cs, hcs⟩ := List.exists_cons_of_ne_nil (hns n List.mem_cons_self)
    intro x hx
    rw [numbersText_cons, hcs] at hx
    exact n.1.head_not_digit x (by rw [hcs]; exact hx)

theorem Numeral.extract (n : Numeral) (b : Blanks) (hrest : ∀ c ∈ rest.head?, c.isDigit = false) :
    (ofText (b.chars ++ (n.digits ++ rest))).extract =
      (some n.value, ⟨rest, rest.isEmpty, false⟩) :=
  extract_numeral b.blank n.isDigit n.ne_nil n.lt hrest

variable {body : UInt64 → α → α} {junk : ℕ → UInt64}

/-- The loop takes the numbers one by one, and one more time what is no number if there is white space
at the end. -/
theorem untilEof_numbers {ns : List (Blanks × Numeral)} (hns : ∀ n ∈ ns, n.1.chars ≠ [])
    (trail : Blanks) (fuel turn : ℕ) (a : α) (hfuel : ns.length < fuel) :
    untilEof body junk fuel turn
      ⟨numbersText ns ++ trail.chars, (numbersText ns ++ trail.chars).isEmpty, false⟩ a =
    some (if trail.chars = [] then ns.foldl (fun a n => body n.2.value a) a
      else body (junk (turn + ns.length)) (ns.foldl (fun a n => body n.2.value a) a)) := by
  induction ns generalizing fuel turn a with
  | nil =>
    show untilEof body junk fuel turn ⟨trail.chars, trail.chars.isEmpty, false⟩ a = _
    split_ifs with htrail
    · rw [htrail, untilEof_eof _ _ _ rfl]
      rfl
    · have hempty : trail.chars.isEmpty = false := by simpa using htrail
      obtain ⟨fuel, rfl⟩ := Nat.exists_eq_succ_of_ne_zero (Nat.ne_zero_of_lt hfuel)
      rw [hempty, untilEof_step fuel turn a rfl]
      have hread := extract_spaces trail.chars trail.blank
      rw [ofText] at hread
      rw [hread, untilEof_eof _ _ _ rfl]
      rfl
  | cons n ns ih =>
    obtain ⟨fuel, rfl⟩ := Nat.exists_eq_succ_of_ne_zero (Nat.ne_zero_of_lt hfuel)
    have hns' : ∀ m ∈ ns, m.1.chars ≠ [] := fun m hm => hns m (List.mem_cons_of_mem n hm)
    have hempty : (numbersText (n :: ns) ++ trail.chars).isEmpty = false := by
      rw [numbersText_cons]
      simp [n.2.ne_nil]
    have hread := n.2.extract n.1 (numbersText_head hns' trail)
    rw [← numbersText_cons, ofText] at hread
    rw [hempty, untilEof_step fuel turn a rfl, hread,
      ih hns' fuel (turn + 1) _ (Nat.lt_of_succ_lt_succ hfuel), List.length_cons, List.foldl_cons,
      Nat.add_right_comm, Nat.add_assoc]
    rfl

end Written

end TextStreams
