import Mathlib.Data.List.Perm.Basic
import Mathlib.Tactic.SplitIfs

/-! Texts as lines, with their ends when they are read one by one. -/
namespace TextLines

/-- The lines of a text, each with its end; the last one may lack it. -/
def lines : List Char → List (List Char)
  | [] => []
  | c :: cs =>
    if c = '\n' then ['\n'] :: lines cs
    else
      match lines cs with
      | [] => [[c]]
      | l :: ls => (c :: l) :: ls

def unlines (ls : List (List Char)) : List Char := ls.flatMap (· ++ ['\n'])

/-- Ends of lines as a text file is read: a carriage return, alone or with a newline behind it, is one. -/
def translate : List Char → List Char
  | [] => []
  | '\r' :: '\n' :: cs => '\n' :: translate cs
  | '\r' :: cs => '\n' :: translate cs
  | c :: cs => c :: translate cs

section Lines
variable {l : List Char} {ls : List (List Char)}

@[simp] theorem unlines_append (ls ls' : List (List Char)) :
    unlines (ls ++ ls') = unlines ls ++ unlines ls' := List.flatMap_append

theorem lines_append (h : '\n' ∉ l) (rest : List Char) :
    lines (l ++ '\n' :: rest) = (l ++ ['\n']) :: lines rest := by
  induction l with
  | nil => rfl
  | cons c l ih =>
    obtain ⟨hc, hl⟩ := not_or.mp fun h' => h (List.mem_cons.mpr h')
    rw [List.cons_append, lines, if_neg (Ne.symm hc), ih hl]
    rfl

/-- Lines that are written are read again. -/
theorem lines_unlines (h : ∀ l ∈ ls, '\n' ∉ l) : lines (unlines ls) = ls.map (· ++ ['\n']) := by
  induction ls with
  | nil => rfl
  | cons l ls ih =>
    obtain ⟨hl, hls⟩ := List.forall_mem_cons.mp h
    have hcons : unlines (l :: ls) = l ++ '\n' :: unlines ls := by simp [unlines]
    rw [hcons, lines_append hl, ih hls, List.map_cons]

/-- Without carriage returns nothing is changed. -/
theorem translate_eq (h : '\r' ∉ l) : translate l = l := by
  induction l with
  | nil => rfl
  | cons c l ih =>
    obtain ⟨hc, hl⟩ := not_or.mp fun h' => h (List.mem_cons.mpr h')
    rw [translate, ih hl]
    · exact fun _ hreturn _ => hc hreturn.symm
    · exact fun hreturn => hc hreturn.symm

/-- No carriage return is left in a text that is read. -/
theorem notMem_translate (text : List Char) : '\r' ∉ translate text := by
  induction text using translate.induct with
  | case1 => exact List.not_mem_nil
  | case2 cs ih => simpa [translate] using ih
  | case3 cs hnext ih =>
    rw [translate]
    · simpa using ih
    · exact hnext
  | case4 c cs hboth hreturn ih =>
    rw [translate]
    · have hc : '\r' ≠ c := fun h => hreturn h.symm
      simp [hc, ih]
    · exact hboth
    · exact hreturn

/-- A newline only ends a line that is read. -/
theorem mem_lines {text : List Char} (h : l ∈ lines text) : '\n' ∉ l.dropLast ∧ l ⊆ text := by
  induction text generalizing l with
  | nil => exact absurd h List.not_mem_nil
  | cons c text ih =>
    have hcons {l : List Char} (hl : l ⊆ text) : l ⊆ c :: text :=
      fun _ hd => List.mem_cons_of_mem c (hl hd)
    rw [lines] at h
    split_ifs at h with hc
    · rcases List.mem_cons.mp h with rfl | h
      · simp [hc]
      · obtain ⟨hnot, hsub⟩ := ih h
        exact ⟨hnot, hcons hsub⟩
    · cases hlines : lines text with
      | nil =>
        rw [hlines] at h
        obtain rfl := List.mem_singleton.mp h
        simp
      | cons first rest =>
        rw [hlines] at h ih
        rcases List.mem_cons.mp h with rfl | h
        · obtain ⟨hnot, hsub⟩ := ih List.mem_cons_self
          refine ⟨fun hmem => ?_, List.cons_subset_cons c hsub⟩
          cases first with
          | nil => exact absurd hmem List.not_mem_nil
          | cons d ds =>
            rw [List.dropLast_cons_cons] at hmem
            rcases List.mem_cons.mp hmem with heq | hmem
            · exact hc heq.symm
            · exact hnot hmem
        · obtain ⟨hnot, hsub⟩ := ih (List.mem_cons_of_mem first h)
          exact ⟨hnot, hcons hsub⟩

theorem notMem_unlines {c : Char} (hc : c ≠ '\n') (h : ∀ l ∈ ls, c ∉ l) : c ∉ unlines ls := by
  intro hmem
  obtain ⟨l, hl, hmem⟩ := List.mem_flatMap.mp hmem
  rcases List.mem_append.mp hmem with hmem | hmem
  · exact h l hl hmem
  · exact hc (List.mem_singleton.mp hmem)

/-- Lines that are written, read again and permuted. -/
theorem lines_shuffled {shuffle : List (List Char) → List (List Char)}
    (hshuffle : ∀ l, (shuffle l).Perm l) (h : ∀ l ∈ ls, '\n' ∉ l ∧ '\r' ∉ l) :
    ∃ ls', (shuffle (lines (translate (unlines ls)))).flatten = unlines ls' ∧ ls'.Perm ls := by
  have hread : lines (translate (unlines ls)) = ls.map (· ++ ['\n']) := by
    rw [translate_eq (notMem_unlines (by decide) fun l hl => (h l hl).2),
      lines_unlines fun l hl => (h l hl).1]
  have hcomp : Relation.Comp (· = List.map (fun l : List Char => l ++ ['\n']) ·) List.Perm
      (shuffle (ls.map (· ++ ['\n']))) ls := by
    rw [List.eq_map_comp_perm]
    exact hshuffle _
  obtain ⟨ls', hls', hperm⟩ := hcomp
  exact ⟨ls', by rw [hread, hls', ← List.flatMap_def]; rfl, hperm⟩

/-- A field of a line has no separator, and only characters of the line. -/
theorem mem_splitOn {sep : Char} {f : List Char} (h : f ∈ l.splitOn sep) : sep ∉ f ∧ f ⊆ l := by
  induction l generalizing f with
  | nil =>
    rw [List.splitOn_nil, List.mem_singleton] at h
    simp [h]
  | cons c l ih =>
    rw [List.splitOn_cons_eq_if_modifyHead] at h
    split_ifs at h with hsep
    · rcases List.mem_cons.mp h with rfl | h
      · exact ⟨List.not_mem_nil, List.nil_subset _⟩
      · obtain ⟨hnot, hsub⟩ := ih h
        exact ⟨hnot, fun d hd => List.mem_cons_of_mem c (hsub hd)⟩
    · obtain ⟨g, gs, hgs⟩ := List.exists_cons_of_ne_nil (List.splitOn_ne_nil sep l)
      rw [hgs, List.modifyHead_cons] at h
      rw [hgs] at ih
      rcases List.mem_cons.mp h with rfl | h
      · obtain ⟨hnot, hsub⟩ := ih List.mem_cons_self
        have hne : sep ≠ c := fun heq => hsep (by simp [heq])
        exact ⟨by simp [hne, hnot], List.cons_subset_cons c hsub⟩
      · obtain ⟨hnot, hsub⟩ := ih (List.mem_cons_of_mem g h)
        exact ⟨hnot, fun d hd => List.mem_cons_of_mem c (hsub hd)⟩

end Lines

/-- A file of whole lines. -/
structure TextFile where
  lines : List (List Char)
  notMem : ∀ l ∈ lines, '\n' ∉ l ∧ '\r' ∉ l

namespace TextFile
variable (f : TextFile)

def text : List Char := unlines f.lines

theorem translate_text : translate f.text = f.text :=
  translate_eq (notMem_unlines (by decide) fun l hl => (f.notMem l hl).2)

theorem lines_text : TextLines.lines f.text = f.lines.map (· ++ ['\n']) :=
  lines_unlines fun l hl => (f.notMem l hl).1

end TextFile
end TextLines
