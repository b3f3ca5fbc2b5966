import GraphLogSketch.Library.PartialMaps
import GraphLogSketch.Library.TextLines
import Mathlib.Data.List.Dedup

/-! `extract_nodes.py` collects the persons and devices of a data set and writes a line for each of them.
The order in which a set is gone through and the shuffle are given. `none` is an index error. -/
namespace ExtractNodes
open PartialMaps TextLines

/-- A field of each line that is no comment. -/
def column (i : ℕ) (text : List Char) : Option (List (List Char)) :=
  ((lines (translate text)).filter fun line => line.head? ≠ some '#').mapM fun line =>
    (line.dropLast.splitOn ',')[i]?

def personLine (personId : List Char) : List Char :=
  ['P', 'e', 'r', 's', 'o', 'n', ','] ++ personId ++ [',', ',', ',', ',', ',', ',']

def deviceLine (deviceId : List Char) : List Char :=
  ['D', 'e', 'v', 'i', 'c', 'e', ','] ++ deviceId ++ [',', ',', ',', ',', ',', ',']

/-- The schema information. -/
def header : List (List Char) :=
  ["#delimiter: ,".toList, "#columns:type,person,person,topic,date,lat,lon".toList,
    "#types:STRING,UINT,UINT,UINT,USDATE,DOUBLE,DOUBLE".toList]

section Main
variable (iter : List (List Char) → List (List Char)) (shuffle : List (List Char) → List (List Char))

/-- The node file that is made of the texts of the other files. -/
def main (commercialIn cyberIn socialIn usesIn : List Char) : Option (List Char) := do
  let sellers ← column 1 commercialIn
  let buyers ← column 2 commercialIn
  let sources ← column 0 cyberIn
  let destinations ← column 1 cyberIn
  let persons ← column 0 socialIn
  let friends ← column 1 socialIn
  let users ← column 0 usesIn
  let servers ← column 1 usesIn
  let personIds := iter (sellers ++ buyers ++ persons ++ friends ++ users).dedup
  let deviceIds := iter (sources ++ destinations ++ servers).dedup
  let nodeOut := unlines (personIds.map personLine ++ deviceIds.map deviceLine)
  return unlines header ++ (shuffle (lines (translate nodeOut))).flatten

end Main

/-- The lines of a file that are no comments. -/
def records (f : TextFile) : List (List Char) := f.lines.filter fun line => line.head? ≠ some '#'

def field (i : ℕ) (line : List Char) : List Char := (line.splitOn ',').getD i []

section Columns
variable {f : TextFile} {i : ℕ}

/-- The column of a file whose lines have enough fields. -/
theorem column_text (h : ∀ line ∈ records f, i < (line.splitOn ',').length) :
    column i f.text = some ((records f).map (field i)) := by
  have hfilter : (f.lines.map (· ++ ['\n'])).filter (fun line => line.head? ≠ some '#') =
      (records f).map (· ++ ['\n']) := by
    rw [records, List.filter_map]
    congr 1
    apply List.filter_congr
    intro line _
    cases line <;> rfl
  unfold column
  rw [f.translate_text, f.lines_text, hfilter, List.mapM_map]
  apply mapM_eq_some
  intro line hline
  simp [field, h line hline]

end Columns

/-- The files that node lines are made from. -/
structure Records where
  commercial : TextFile
  cyber : TextFile
  social : TextFile
  uses : TextFile

namespace Records
variable (d : Records)

/-- The persons of the lines, as often as they stand there. -/
def personIds : List (List Char) :=
  (records d.commercial).map (field 1) ++ (records d.commercial).map (field 2) ++
    (records d.social).map (field 0) ++ (records d.social).map (field 1) ++
    (records d.uses).map (field 0)

def deviceIds : List (List Char) :=
  (records d.cyber).map (field 0) ++ (records d.cyber).map (field 1) ++
    (records d.uses).map (field 1)

/-- The lines have the columns of the ids, and the ids are numbers. -/
structure HasIds : Prop where
  commercial : ∀ line ∈ records d.commercial, 2 < (line.splitOn ',').length
  cyber : ∀ line ∈ records d.cyber, 1 < (line.splitOn ',').length
  social : ∀ line ∈ records d.social, 1 < (line.splitOn ',').length
  uses : ∀ line ∈ records d.uses, 1 < (line.splitOn ',').length
  person : ∀ id ∈ d.personIds, ∀ c ∈ id, c.isDigit = true
  device : ∀ id ∈ d.deviceIds, ∀ c ∈ id, c.isDigit = true

end Records

section Nodes
variable {d : Records} {id l : List Char}

theorem notMem_line (h : ∀ c ∈ id, c.isDigit = true) (hl : l = personLine id ∨ l = deviceLine id) :
    '\n' ∉ l ∧ '\r' ∉ l := by
  have hid {c : Char} (hc : c.isDigit = false) : c ∉ id := fun hmem =>
    absurd (hc.symm.trans (h c hmem)) Bool.false_ne_true
  have hnewline := hid (c := '\n') (by decide)
  have hreturn := hid (c := '\r') (by decide)
  rcases hl with rfl | rfl
  · simp [personLine, hnewline, hreturn]
  · simp [deviceLine, hnewline, hreturn]

theorem header_lines : ∀ l ∈ header, '\n' ∉ l ∧ '\r' ∉ l ∧ l.head? = some '#' := by decide

theorem node_not_comment (hl : l = personLine id ∨ l = deviceLine id) : l.head? ≠ some '#' := by
  rcases hl with rfl | rfl
  · simp [personLine]
  · simp [deviceLine]

/-- The node file has a line for each person and device. -/
theorem main_text {iter shuffle : List (List Char) → List (List Char)} (hiter : ∀ l, (iter l).Perm l)
    (hshuffle : ∀ l, (shuffle l).Perm l) (h : d.HasIds) :
    ∃ nodes : TextFile, main iter shuffle d.commercial.text d.cyber.text d.social.text d.uses.text =
        some nodes.text ∧
      (records nodes).Perm (d.personIds.dedup.map personLine ++ d.deviceIds.dedup.map deviceLine) := by
  have hmem {ids : List (List Char)} {id : List Char} (hid : id ∈ iter ids.dedup) : id ∈ ids :=
    List.mem_dedup.mp ((hiter _).mem_iff.mp hid)
  have hline : ∀ l ∈ (iter d.personIds.dedup).map personLine ++ (iter d.deviceIds.dedup).map deviceLine,
      ∃ id, (∀ c ∈ id, c.isDigit = true) ∧ (l = personLine id ∨ l = deviceLine id) := by
    intro l hl
    rcases List.mem_append.mp hl with hl | hl
    · obtain ⟨id, hid, rfl⟩ := List.mem_map.mp hl
      exact ⟨id, h.person id (hmem hid), Or.inl rfl⟩
    · obtain ⟨id, hid, rfl⟩ := List.mem_map.mp hl
      exact ⟨id, h.device id (hmem hid), Or.inr rfl⟩
  set written := (iter d.personIds.dedup).map personLine ++ (iter d.deviceIds.dedup).map deviceLine
  have hplain : ∀ l ∈ written, '\n' ∉ l ∧ '\r' ∉ l := by
    intro l hl
    obtain ⟨id, hid, hl⟩ := hline l hl
    exact notMem_line hid hl
  obtain ⟨ls, hls, hperm⟩ := lines_shuffled hshuffle hplain
  have hnode : ∀ l ∈ header ++ ls, '\n' ∉ l ∧ '\r' ∉ l := by
    intro l hl
    rcases List.mem_append.mp hl with hl | hl
    · obtain ⟨hnewline, hreturn, -⟩ := header_lines l hl
      exact ⟨hnewline, hreturn⟩
    · exact hplain l (hperm.mem_iff.mp hl)
  refine ⟨⟨header ++ ls, hnode⟩, ?_, ?_⟩
  · have hcommercial := column_text fun line hline => Nat.lt_of_succ_lt (h.commercial line hline)
    have hcyber := column_text fun line hline => Nat.lt_of_succ_lt (h.cyber line hline)
    have hsocial := column_text fun line hline => Nat.lt_of_succ_lt (h.social line hline)
    have huses := column_text fun line hline => Nat.lt_of_succ_lt (h.uses line hline)
    simp only [main, hcommercial, column_text h.commercial, hcyber, column_text h.cyber, hsocial,
      column_text h.social, huses, column_text h.uses, Option.bind_eq_bind, Option.bind_some]
    show some (unlines header ++ (shuffle (lines (translate (unlines written)))).flatten) = _
    rw [hls, ← unlines_append]
    rfl
  · have hcomments : header.filter (fun line => line.head? ≠ some '#') = [] := by decide
    have hnodes : ls.filter (fun line => line.head? ≠ some '#') = ls := by
      apply List.filter_eq_self.mpr
      intro l hl
      obtain ⟨id, -, hl⟩ := hline l (hperm.mem_iff.mp hl)
      exact decide_eq_true (node_not_comment hl)
    rw [records]
    dsimp only
    rw [List.filter_append, hcomments, hnodes, List.nil_append]
    exact hperm.trans (((hiter _).map _).append ((hiter _).map _))

end Nodes
end ExtractNodes
