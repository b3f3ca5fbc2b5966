import Mathlib.Data.List.TakeWhile
import Mathlib.Tactic

/-! Records of separated fields, as a strict reader takes them from a text: comments and blank lines are
skipped, a field is bare or quoted, and a quoted field may go over several lines. The end of the text and
an error both end the records. -/
namespace Csv

structure Reader where
  comma : Char
  comment : Char
  fieldsPerRecord : ℕ

/-- No separator is the zero character, a quote, a line end or the replacement character. -/
def validDelim (c : Char) : Bool :=
  c ∉ [Char.ofNat 0, '"', '\r', '\n', Char.ofNat 0xFFFD]

/-- The line ends `\r\n` become `\n`, and a `\r` in front of the end is dropped. -/
def normalize : List Char → List Char
  | [] => []
  | c :: cs =>
    if c = '\r' ∧ (cs = [] ∨ cs.head? = some '\n') then normalize cs else c :: normalize cs

/-- What is behind the current line. -/
def afterLine (text : List Char) : List Char := (text.dropWhile (· ≠ '\n')).drop 1

/-- A field, whether there is another one in the record, and what is left. -/
abbrev Field := List Char × Bool × List Char

def bareField (comma : Char) (text : List Char) : Option Field :=
  let field := text.takeWhile fun c => c ≠ comma ∧ c ≠ '\n'
  let rest := text.dropWhile fun c => c ≠ comma ∧ c ≠ '\n'
  if '"' ∈ field then none else some (field, rest.head? = some comma, rest.drop 1)

/-- A quoted field from behind its first quote on. Two quotes stand for one. -/
def quotedField (comma : Char) : List Char → Option Field
  | [] => none
  | c :: cs =>
    if c ≠ '"' then (quotedField comma cs).map fun f => (c :: f.1, f.2)
    else
      match cs with
      | [] => some ([], false, [])
      | d :: ds =>
        if d = '"' then (quotedField comma ds).map fun f => ('"' :: f.1, f.2)
        else if d = comma then some ([], true, ds)
        else if d = '\n' then some ([], false, ds)
        else none

def field (comma : Char) (text : List Char) : Option Field :=
  if text.head? = some '"' then quotedField comma (text.drop 1) else bareField comma text

section Lengths
variable {comma : Char} {text : List Char} {f : Field}

theorem bareField_length (h : bareField comma text = some f) :
    f.2.2.length ≤ text.length - 1 ∧ (f.2.1 = true → text ≠ []) := by
  have hle := (List.dropWhile_suffix (l := text) fun c => c ≠ comma ∧ c ≠ '\n').length_le
  unfold bareField at h
  dsimp only at h
  split_ifs at h
  rw [← Option.some.inj h]
  constructor
  · rw [List.length_drop]
    exact Nat.sub_le_sub_right hle 1
  · rintro hmore rfl
    contradiction

theorem quotedField_length (h : quotedField comma text = some f) :
    f.2.2.length < text.length := by
  fun_induction quotedField comma text generalizing f with
  | case1 => contradiction
  | case2 c cs _ ih =>
    obtain ⟨g, hg, rfl⟩ := Option.map_eq_some_iff.mp h
    exact (ih hg).trans (Nat.lt_succ_self _)
  | case3 =>
    rw [← Option.some.inj h]
    exact Nat.one_pos
  | case4 c ds _ ih =>
    obtain ⟨g, hg, rfl⟩ := Option.map_eq_some_iff.mp h
    exact (ih hg).trans (Nat.lt_add_of_pos_right Nat.two_pos)
  | case5 =>
    rw [← Option.some.inj h]
    exact Nat.lt_add_of_pos_right Nat.two_pos
  | case6 =>
    rw [← Option.some.inj h]
    exact Nat.lt_add_of_pos_right Nat.two_pos
  | case7 => contradiction

theorem field_length (h : field comma text = some f) :
    f.2.2.length ≤ text.length - 1 ∧ (f.2.1 = true → text ≠ []) := by
  unfold field at h
  split_ifs at h with hquote
  · have hlt := quotedField_length h
    rw [List.length_drop] at hlt
    refine ⟨by omega, ?_⟩
    rintro - rfl
    contradiction
  · exact bareField_length h

end Lengths

/-- The fields of a record. -/
def fields (comma : Char) (text : List Char) : Option (List (List Char) × List Char) :=
  match _ : field comma text with
  | none => none
  | some (f, false, rest) => some ([f], rest)
  | some (f, true, rest) => (fields comma rest).map fun r => (f :: r.1, r.2)
termination_by text.length
decreasing_by
  rename_i h
  obtain ⟨hle, hne⟩ := field_length h
  have hpos := List.length_pos_of_ne_nil (hne rfl)
  exact lt_of_le_of_lt hle (Nat.sub_lt hpos Nat.one_pos)

theorem fields_length {comma : Char} {text : List Char} {r : List (List Char) × List Char}
    (h : fields comma text = some r) : r.2.length ≤ text.length - 1 := by
  fun_induction fields comma text generalizing r with
  | case1 => contradiction
  | case2 text f rest hf =>
    rw [← Option.some.inj h]
    exact (field_length hf).1
  | case3 text f rest hf ih =>
    obtain ⟨r', hr', rfl⟩ := Option.map_eq_some_iff.mp h
    have hle := (field_length hf).1
    exact ((ih hr').trans (Nat.sub_le _ _)).trans hle

theorem afterLine_length_lt {text : List Char} (hne : text ≠ []) :
    (afterLine text).length < text.length := by
  have hle := (List.dropWhile_suffix (l := text) fun c => c ≠ '\n').length_le
  have hpos := List.length_pos_of_ne_nil hne
  unfold afterLine
  rw [List.length_drop]
  omega

/-- Comments and blank lines are skipped; without a comment character there are no comments. -/
def skipLines (comment : Char) (text : List Char) : List Char :=
  if _ : text ≠ [] ∧ (comment ≠ Char.ofNat 0 ∧ text.head? = some comment ∨ text.head? = some '\n') then
    skipLines comment (afterLine text)
  else text
termination_by text.length
decreasing_by
  rename_i h
  exact afterLine_length_lt h.1

theorem skipLines_length_le (comment : Char) (text : List Char) :
    (skipLines comment text).length ≤ text.length := by
  fun_induction skipLines comment text with
  | case1 text h ih => exact ih.trans (afterLine_length_lt h.1).le
  | case2 => exact le_rfl

namespace Reader

def Ok (r : Reader) : Prop :=
  r.comma ≠ r.comment ∧ validDelim r.comma ∧ (r.comment ≠ Char.ofNat 0 → validDelim r.comment)

instance (r : Reader) : Decidable r.Ok := inferInstanceAs (Decidable (_ ∧ _ ∧ _))

/-- The next record and what is left. -/
def read (r : Reader) (text : List Char) : Option (List (List Char) × List Char) :=
  if ¬ r.Ok then none
  else
    let text := skipLines r.comment text
    if text = [] then none
    else do
      let (record, rest) ← fields r.comma text
      if record.length ≠ r.fieldsPerRecord then none else return (record, rest)

theorem read_length_lt {r : Reader} {text rest : List Char} {record : List (List Char)}
    (h : r.read text = some (record, rest)) : rest.length < text.length := by
  unfold read at h
  dsimp only at h
  split_ifs at h with hok hnil
  obtain ⟨⟨record', rest'⟩, hfields, h⟩ := Option.bind_eq_some_iff.mp h
  dsimp only at h
  split_ifs at h
  obtain ⟨-, rfl⟩ := Prod.mk.inj (Option.some.inj h)
  have hle := fields_length hfields
  have hpos := List.length_pos_of_ne_nil hnil
  have hskip := skipLines_length_le r.comment text
  dsimp only at hle
  omega

/-- The records from a position on. -/
def recordsFrom (r : Reader) (text : List Char) : List (List (List Char)) :=
  match _ : r.read text with
  | none => []
  | some (record, rest) => record :: recordsFrom r rest
termination_by text.length
decreasing_by
  rename_i h
  exact read_length_lt h

def records (r : Reader) (text : List Char) : List (List (List Char)) :=
  r.recordsFrom (normalize text)

/-- What is left where the records end. -/
def restFrom (r : Reader) (text : List Char) : List Char :=
  match _ : r.read text with
  | none => text
  | some (_, rest) => restFrom r rest
termination_by text.length
decreasing_by
  rename_i h
  exact read_length_lt h

/-- The records end where the text does, and not at an error. -/
def ReadsAll (r : Reader) (text : List Char) : Prop :=
  r.Ok ∧ skipLines r.comment (r.restFrom (normalize text)) = []

end Reader

section Written
variable {r : Reader} {comma : Char} {f rest : List Char}

/-- A line of bare fields, a comment, or a blank line. -/
inductive Line where
  | record (fs : List (List Char))
  | comment (body : List Char)
  | blank

/-- A field that is written without quotes. -/
def Bare (comma : Char) (f : List Char) : Prop := ∀ c ∈ f, c ≠ comma ∧ c ∉ ['"', '\n', '\r']

def Line.text (r : Reader) : Line → List Char
  | .record fs => [r.comma].intercalate fs
  | .comment body => r.comment :: body
  | .blank => []

/-- A record has its fields, and does not look like a comment or a blank line. -/
def Line.Ok (r : Reader) : Line → Prop
  | .record fs => fs.length = r.fieldsPerRecord ∧ (∀ f ∈ fs, Bare r.comma f) ∧
      ∃ c ∈ ([r.comma].intercalate fs).head?, c ≠ r.comment ∧ c ≠ '\n'
  | .comment body => r.comment ≠ Char.ofNat 0 ∧ '\n' ∉ body ∧ '\r' ∉ body
  | .blank => True

def Line.fields : Line → Option (List (List Char))
  | .record fs => some fs
  | .comment _ => none
  | .blank => none

def linesText (r : Reader) (ls : List Line) : List Char := ls.flatMap fun l => l.text r ++ ['\n']

theorem normalize_append {text : List Char} (h : '\r' ∉ text) (rest : List Char) :
    normalize (text ++ rest) = text ++ normalize rest := by
  induction text with
  | nil => rfl
  | cons c cs ih =>
    obtain ⟨hc, hcs⟩ := not_or.mp fun h' => h (List.mem_cons.mpr h')
    rw [List.cons_append, normalize, if_neg fun hr => hc hr.1.symm, ih hcs, List.cons_append]

theorem afterLine_append (body rest : List Char) (hbody : '\n' ∉ body) :
    afterLine (body ++ '\n' :: rest) = rest := by
  unfold afterLine
  have hall : ∀ c ∈ body, decide (c ≠ '\n') = true := by
    intro c hc
    apply decide_eq_true
    rintro rfl
    exact hbody hc
  rw [List.dropWhile_append_of_pos hall]
  simp

/-- A bare field up to a separator or the end of the line. -/
theorem field_bare (hf : Bare comma f) (hcomma : comma ≠ '"') {c : Char}
    (hc : c = comma ∨ c = '\n') (rest : List Char) :
    field comma (f ++ c :: rest) = some (f, decide (c = comma), rest) := by
  have hspan : ∀ d ∈ f, decide (d ≠ comma ∧ d ≠ '\n') = true := by
    intro d hd
    obtain ⟨hd, hend⟩ := hf d hd
    exact decide_eq_true ⟨hd, fun h => hend (by simp [h])⟩
  have hstop : decide (c ≠ comma ∧ c ≠ '\n') = false := by
    rcases hc with rfl | rfl
    · simp
    · simp
  have hquote : (f ++ c :: rest).head? ≠ some '"' := by
    cases f with
    | nil =>
      rcases hc with rfl | rfl
      · simpa using hcomma
      · simp
    | cons d f =>
      intro h
      exact (hf d List.mem_cons_self).2 (by simp [Option.some.inj h])
  have hfree : '"' ∉ f := fun h => (hf _ h).2 (by simp)
  unfold field bareField
  rw [if_neg hquote]
  dsimp only
  rw [List.takeWhile_append_of_pos hspan, List.dropWhile_append_of_pos hspan,
    List.takeWhile_cons_of_neg (by simp [hstop]), List.dropWhile_cons_of_neg (by simp [hstop]),
    List.append_nil, if_neg hfree]
  simp

theorem fields_last {text : List Char} (h : field comma text = some (f, false, rest)) :
    fields comma text = some ([f], rest) := by
  rw [fields]
  split
  all_goals
    rename_i heq
    rw [h] at heq
  · contradiction
  · obtain ⟨rfl, -, rfl⟩ := by simpa using heq
    rfl
  · simp at heq

theorem fields_more {text : List Char} (h : field comma text = some (f, true, rest)) :
    fields comma text = (fields comma rest).map fun r => (f :: r.1, r.2) := by
  rw [fields]
  split
  all_goals
    rename_i heq
    rw [h] at heq
  · contradiction
  · simp at heq
  · obtain ⟨rfl, -, rfl⟩ := by simpa using heq
    rfl

theorem fields_bare {fs : List (List Char)} (hne : fs ≠ []) (hfs : ∀ f ∈ fs, Bare comma f)
    (hcomma : comma ≠ '"' ∧ comma ≠ '\n') (rest : List Char) :
    fields comma ([comma].intercalate fs ++ '\n' :: rest) = some (fs, rest) := by
  induction fs with
  | nil => exact absurd rfl hne
  | cons f fs ih =>
    have hf := hfs f List.mem_cons_self
    cases fs with
    | nil =>
      have hlast := field_bare hf hcomma.1 (Or.inr rfl) rest
      rw [decide_eq_false hcomma.2.symm] at hlast
      rw [List.intercalate_singleton]
      exact fields_last hlast
    | cons g gs =>
      have hmore := field_bare hf hcomma.1 (Or.inl rfl) ([comma].intercalate (g :: gs) ++ '\n' :: rest)
      rw [decide_eq_true rfl] at hmore
      have hrest := ih (List.cons_ne_nil g gs) fun f hf => hfs f (List.mem_cons_of_mem _ hf)
      rw [List.intercalate_cons_cons, List.append_assoc, List.append_assoc, List.singleton_append,
        fields_more hmore, hrest]
      rfl

theorem Reader.Ok.comma_ne (h : r.Ok) : r.comma ≠ '"' ∧ r.comma ≠ '\n' ∧ r.comma ≠ '\r' := by
  have hvalid := h.2.1
  simp only [validDelim, List.mem_cons, decide_eq_true_eq, not_or] at hvalid
  exact ⟨hvalid.2.1, hvalid.2.2.2.1, hvalid.2.2.1⟩

theorem skipLines_record {text : List Char} {c : Char} (h : text.head? = some c)
    (hc : c ≠ r.comment ∧ c ≠ '\n') : skipLines r.comment text = text := by
  rw [skipLines, dif_neg]
  rintro ⟨-, ⟨-, hcomment⟩ | hblank⟩
  · exact hc.1 (Option.some.inj (h.symm.trans hcomment))
  · exact hc.2 (Option.some.inj (h.symm.trans hblank))

theorem skipLines_comment (hr : r.comment ≠ Char.ofNat 0) {body : List Char} (hbody : '\n' ∉ body)
    (rest : List Char) (hnewline : r.comment ≠ '\n') :
    skipLines r.comment (r.comment :: (body ++ '\n' :: rest)) = skipLines r.comment rest := by
  have hline := afterLine_append (r.comment :: body) rest
    fun h => (List.mem_cons.mp h).elim (fun h => hnewline h.symm) hbody
  rw [List.cons_append] at hline
  rw [skipLines, dif_pos ⟨List.cons_ne_nil _ _, Or.inl ⟨hr, rfl⟩⟩, hline]

theorem skipLines_blank (comment : Char) (rest : List Char) :
    skipLines comment ('\n' :: rest) = skipLines comment rest := by
  rw [skipLines, dif_pos ⟨List.cons_ne_nil _ _, Or.inr rfl⟩]
  exact congrArg _ (afterLine_append [] rest List.not_mem_nil)

theorem Reader.recordsFrom_none {text : List Char} (h : r.read text = none) :
    r.recordsFrom text = [] := by
  rw [recordsFrom]
  split
  · rfl
  · rename_i heq
    rw [h] at heq
    contradiction

theorem Reader.recordsFrom_some {text : List Char} {record : List (List Char)}
    (h : r.read text = some (record, rest)) :
    r.recordsFrom text = record :: r.recordsFrom rest := by
  rw [recordsFrom]
  split
  all_goals
    rename_i heq
    rw [h] at heq
  · contradiction
  · obtain ⟨rfl, rfl⟩ := by simpa using heq
    rfl

theorem Reader.restFrom_none {text : List Char} (h : r.read text = none) : r.restFrom text = text := by
  rw [restFrom]
  split
  · rfl
  · rename_i heq
    rw [h] at heq
    contradiction

theorem Reader.restFrom_some {text : List Char} {record : List (List Char)}
    (h : r.read text = some (record, rest)) : r.restFrom text = r.restFrom rest := by
  rw [restFrom]
  split
  all_goals
    rename_i heq
    rw [h] at heq
  · contradiction
  · obtain ⟨-, rfl⟩ := by simpa using heq
    rfl

/-- What is read depends only on what is left after the skipped lines. -/
theorem Reader.recordsFrom_congr {text text' : List Char}
    (h : skipLines r.comment text = skipLines r.comment text') :
    r.recordsFrom text = r.recordsFrom text' ∧
      skipLines r.comment (r.restFrom text) = skipLines r.comment (r.restFrom text') := by
  have hread : r.read text = r.read text' := by
    unfold read
    rw [h]
  rcases hnext : r.read text' with - | ⟨record, rest⟩
  · rw [recordsFrom_none hnext, recordsFrom_none (hread.trans hnext), restFrom_none hnext,
      restFrom_none (hread.trans hnext)]
    exact ⟨rfl, h⟩
  · rw [recordsFrom_some hnext, recordsFrom_some (hread.trans hnext), restFrom_some hnext,
      restFrom_some (hread.trans hnext)]
    exact ⟨rfl, rfl⟩

/-- A line of bare fields is a record if it has the right number of them. -/
theorem Reader.read_bare (hr : r.Ok) {fs : List (List Char)} (hbare : ∀ f ∈ fs, Bare r.comma f)
    (hfirst : ∃ c ∈ ([r.comma].intercalate fs).head?, c ≠ r.comment ∧ c ≠ '\n') (rest : List Char) :
    r.read ([r.comma].intercalate fs ++ '\n' :: rest) =
      if fs.length ≠ r.fieldsPerRecord then none else some (fs, rest) := by
  obtain ⟨c, hc, hfirst⟩ := hfirst
  have hhead : ([r.comma].intercalate fs ++ '\n' :: rest).head? = some c := by
    rw [List.head?_append, hc]
    rfl
  have hne : fs ≠ [] := by
    rintro rfl
    simp at hc
  have hnil : [r.comma].intercalate fs ++ '\n' :: rest ≠ [] := by simp
  unfold read
  dsimp only
  rw [if_neg (not_not.mpr hr), skipLines_record hhead hfirst, if_neg hnil,
    fields_bare hne hbare ⟨hr.comma_ne.1, hr.comma_ne.2.1⟩]
  rfl

theorem Reader.read_nil (r : Reader) : r.read [] = none := by
  have hskip : skipLines r.comment [] = [] := by
    rw [skipLines, dif_neg fun h => h.1 rfl]
  unfold Reader.read
  rw [hskip]
  split_ifs <;> rfl

/-- The records of such lines are read, and then those behind them. -/
theorem recordsFrom_linesText (hr : r.Ok) {ls : List Line} (hls : ∀ l ∈ ls, l.Ok r)
    (rest : List Char) :
    r.recordsFrom (linesText r ls ++ rest) = ls.filterMap Line.fields ++ r.recordsFrom rest ∧
      skipLines r.comment (r.restFrom (linesText r ls ++ rest)) =
        skipLines r.comment (r.restFrom rest) := by
  induction ls with
  | nil => exact ⟨rfl, rfl⟩
  | cons l ls ih =>
    have hl := hls l List.mem_cons_self
    have hrest := ih fun l hl => hls l (List.mem_cons_of_mem _ hl)
    have htext : linesText r (l :: ls) ++ rest = l.text r ++ '\n' :: (linesText r ls ++ rest) := by
      simp [linesText]
    rw [htext]
    cases l with
    | record fs =>
      have hread := Reader.read_bare hr hl.2.1 hl.2.2 (linesText r ls ++ rest)
      rw [if_neg (not_not.mpr hl.1)] at hread
      rw [Line.text, Reader.recordsFrom_some hread, Reader.restFrom_some hread, hrest.1]
      exact ⟨rfl, hrest.2⟩
    | comment body =>
      have hnewline : r.comment ≠ '\n' := by
        intro h
        have hvalid := hr.2.2 hl.1
        rw [h] at hvalid
        exact absurd hvalid (by decide)
      have hskip := Reader.recordsFrom_congr (skipLines_comment hl.1 hl.2.1
        (linesText r ls ++ rest) hnewline)
      exact ⟨hskip.1.trans hrest.1, hskip.2.trans hrest.2⟩
    | blank =>
      have hskip := Reader.recordsFrom_congr (skipLines_blank r.comment (linesText r ls ++ rest))
      exact ⟨hskip.1.trans hrest.1, hskip.2.trans hrest.2⟩

theorem mem_intercalate {fs : List (List Char)} {c : Char} (h : c ∈ [comma].intercalate fs) :
    c = comma ∨ ∃ f ∈ fs, c ∈ f := by
  induction fs with
  | nil => exact absurd h List.not_mem_nil
  | cons f fs ih =>
    cases fs with
    | nil =>
      rw [List.intercalate_singleton] at h
      exact Or.inr ⟨f, List.mem_cons_self, h⟩
    | cons g gs =>
      rw [List.intercalate_cons_cons, List.append_assoc] at h
      rcases List.mem_append.mp h with h | h
      · exact Or.inr ⟨f, List.mem_cons_self, h⟩
      · rcases List.mem_cons.mp h with h | h
        · exact Or.inl h
        · refine (ih h).imp_right ?_
          rintro ⟨f', hf', hc⟩
          exact ⟨f', List.mem_cons_of_mem _ hf', hc⟩

theorem return_notMem_text (hr : r.Ok) {l : Line} (hl : l.Ok r) : '\r' ∉ l.text r := by
  cases l with
  | record fs =>
    intro h
    rcases mem_intercalate h with h | ⟨f, hf, h⟩
    · exact hr.comma_ne.2.2 h.symm
    · exact (hl.2.1 f hf _ h).2 (by simp)
  | comment body =>
    intro h
    rcases List.mem_cons.mp h with h | h
    · have hvalid := hr.2.2 hl.1
      rw [← h] at hvalid
      exact absurd hvalid (by decide)
    · exact hl.2.2 h
  | blank => exact List.not_mem_nil

theorem return_notMem_linesText (hr : r.Ok) {ls : List Line} (hls : ∀ l ∈ ls, l.Ok r) :
    '\r' ∉ linesText r ls := by
  intro h
  obtain ⟨l, hl, h⟩ := List.mem_flatMap.mp h
  exact return_notMem_text hr (hls l hl) (by simpa using h)

/-- The records of such lines are read back. -/
theorem records_linesText (hr : r.Ok) (ls : List Line) (hls : ∀ l ∈ ls, l.Ok r) :
    r.records (linesText r ls) = ls.filterMap Line.fields := by
  have hnormal := normalize_append (return_notMem_linesText hr hls) []
  have hrecords := (recordsFrom_linesText hr hls []).1
  rw [Reader.recordsFrom_none r.read_nil, List.append_nil, List.append_nil] at hrecords
  rw [List.append_nil, normalize, List.append_nil] at hnormal
  rw [Reader.records, hnormal, hrecords]

theorem readsAll_linesText (hr : r.Ok) {ls : List Line} (hls : ∀ l ∈ ls, l.Ok r) :
    r.ReadsAll (linesText r ls) := by
  have hnormal := normalize_append (return_notMem_linesText hr hls) []
  have hends := (recordsFrom_linesText hr hls []).2
  rw [Reader.restFrom_none r.read_nil, List.append_nil] at hends
  rw [List.append_nil, normalize, List.append_nil] at hnormal
  refine ⟨hr, ?_⟩
  rw [hnormal, hends, skipLines, dif_neg fun h => h.1 rfl]

/-- A record with a wrong number of fields ends the records, and is not the end of the text. -/
theorem records_wrongCount (hr : r.Ok) {ls : List Line} (hls : ∀ l ∈ ls, l.Ok r)
    {fs : List (List Char)} (hbare : ∀ f ∈ fs, Bare r.comma f)
    (hfirst : ∃ c ∈ ([r.comma].intercalate fs).head?, c ≠ r.comment ∧ c ≠ '\n')
    (hlen : fs.length ≠ r.fieldsPerRecord) (rest : List Char) :
    r.records (linesText r ls ++ ([r.comma].intercalate fs ++ '\n' :: rest)) =
        ls.filterMap Line.fields ∧
      ¬ r.ReadsAll (linesText r ls ++ ([r.comma].intercalate fs ++ '\n' :: rest)) := by
  have hline : '\r' ∉ [r.comma].intercalate fs ++ ['\n'] := by
    intro h
    rcases List.mem_append.mp h with h | h
    · rcases mem_intercalate h with h | ⟨f, hf, h⟩
      · exact hr.comma_ne.2.2 h.symm
      · exact (hbare f hf _ h).2 (by simp)
    · exact absurd (List.mem_singleton.mp h) (by decide)
  have hnormal : normalize (linesText r ls ++ ([r.comma].intercalate fs ++ '\n' :: rest)) =
      linesText r ls ++ ([r.comma].intercalate fs ++ '\n' :: normalize rest) := by
    have htail := normalize_append hline rest
    simp only [List.append_assoc, List.singleton_append] at htail
    rw [normalize_append (return_notMem_linesText hr hls), htail]
  have hread := Reader.read_bare hr hbare hfirst (normalize rest)
  rw [if_pos hlen] at hread
  obtain ⟨hrecords, hrest⟩ := recordsFrom_linesText hr hls
    ([r.comma].intercalate fs ++ '\n' :: normalize rest)
  rw [Reader.recordsFrom_none hread, List.append_nil] at hrecords
  rw [Reader.restFrom_none hread] at hrest
  constructor
  · rw [Reader.records, hnormal, hrecords]
  · rintro ⟨-, hend⟩
    obtain ⟨c, hc, hfirst⟩ := hfirst
    have hhead : ([r.comma].intercalate fs ++ '\n' :: normalize rest).head? = some c := by
      rw [List.head?_append, hc]
      rfl
    rw [hnormal, hrest, skipLines_record hhead hfirst] at hend
    simp at hend

end Written

end Csv
