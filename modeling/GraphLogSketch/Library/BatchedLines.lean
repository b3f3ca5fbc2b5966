import GraphLogSketch.Library.TextStreams

/-! Files of lines in batches: a loop over the lines up to an empty one, within a loop until the end of
the file is noticed. The body of the inner loop may break it; `none` is a body that does not end. -/
namespace TextStreams
open InputStream

section Loops
variable {α : Type*} (body : ℕ → List Char → α → Option (Bool × α)) (endBatch : α → α)

/-- `while (getline(file, line)) { if (line.length() == 0) break; ... }`; the lines are counted. -/
def untilBlank (i : ℕ) (file : InputStream) (a : α) : Option (ℕ × InputStream × α) :=
  match _ : file.getline with
  | (none, file) => some (i, file, a)
  | (some line, file) =>
    if line = [] then some (i + 1, file, a)
    else
      match body i line a with
      | none => none
      | some (false, a) => some (i + 1, file, a)
      | some (true, a) => untilBlank (i + 1) file a
termination_by file.rest.length
decreasing_by
  rename_i h _
  exact (getline_some h).2

/-- The inner loop takes a line, or finds the end. -/
theorem untilBlank_progress {i j : ℕ} {file file' : InputStream} {a b : α}
    (hs : file.fail = true → file.eof = true) (h : untilBlank body i file a = some (j, file', b)) :
    file'.eof = true ∨ file'.rest.length < file.rest.length := by
  fun_induction untilBlank body i file a with
  | case1 i file a file₁ hline =>
    obtain ⟨-, rfl, -⟩ : i = j ∧ file₁ = file' ∧ a = b := by simpa using h
    exact Or.inl (getline_none hs hline)
  | case2 i file a file₁ hline =>
    obtain ⟨-, rfl, -⟩ : i + 1 = j ∧ file₁ = file' ∧ a = b := by simpa using h
    exact Or.inr (getline_some hline).2
  | case3 => contradiction
  | case4 i file a line file₁ hline hne a₁ hbody =>
    obtain ⟨-, rfl, -⟩ : i + 1 = j ∧ file₁ = file' ∧ a₁ = b := by simpa using h
    exact Or.inr (getline_some hline).2
  | case5 i file a line file₁ hline hne a₁ hbody ih =>
    obtain ⟨hfail, hlt⟩ := getline_some hline
    have hstep := ih (fun h => absurd (hfail.symm.trans h) Bool.false_ne_true) h
    exact hstep.imp_right fun h => h.trans hlt

/-- `while (!file.eof())` around it; without end when the stream has failed in front of its end. -/
def forBatches (i : ℕ) (file : InputStream) (a : α) : Option α :=
  if file.eof then some a
  else if file.fail then none
  else
    match _ : untilBlank body i file a with
    | none => none
    | some (i, file, a) => forBatches i file (endBatch a)
termination_by if file.eof then 0 else file.rest.length + 1
decreasing_by
  rename_i heof hfail h
  rw [if_neg heof]
  split_ifs with hend
  · exact Nat.succ_pos _
  · have hlt := (untilBlank_progress body (fun h => absurd h hfail) h).resolve_left hend
    exact Nat.succ_lt_succ hlt

/-- The loops on the lines of a text. Behind the last line end there is a line of its own kind: it is no
line when it is empty, and the end has been noticed when it is not. -/
def onLines : ℕ → List (List Char) → α → Option α
  | _, [], a => some a
  | i, [line], a => if line = [] then some (endBatch a) else (body i line a).map fun r => endBatch r.2
  | i, line :: next :: lines, a =>
    if line = [] then onLines (i + 1) (next :: lines) (endBatch a)
    else
      match body i line a with
      | none => none
      | some (false, a) => onLines (i + 1) (next :: lines) (endBatch a)
      | some (true, a) => onLines (i + 1) (next :: lines) a

end Loops

section Lines
variable {α : Type*} {body : ℕ → List Char → α → Option (Bool × α)} {endBatch : α → α}
  {file file' : InputStream} {line rest : List Char} {i : ℕ} {a : α}

theorem untilBlank_end (h : file.getline = (none, file')) :
    untilBlank body i file a = some (i, file', a) := by
  rw [untilBlank]
  split
  · rename_i heq
    rw [h] at heq
    rw [(Prod.mk.inj heq).2]
  · rename_i heq
    rw [h] at heq
    exact absurd (Prod.mk.inj heq).1.symm (Option.some_ne_none _)

theorem untilBlank_line (h : file.getline = (some line, file')) :
    untilBlank body i file a = if line = [] then some (i + 1, file', a)
      else match body i line a with
        | none => none
        | some (false, a) => some (i + 1, file', a)
        | some (true, a) => untilBlank body (i + 1) file' a := by
  rw [untilBlank]
  split
  · rename_i heq
    rw [h] at heq
    exact absurd (Prod.mk.inj heq).1 (Option.some_ne_none _)
  · rename_i heq
    rw [h] at heq
    obtain ⟨hline, rfl⟩ := Prod.mk.inj heq
    rw [Option.some.inj hline]

theorem forBatches_eof (h : file.eof = true) : forBatches body endBatch i file a = some a := by
  rw [forBatches, if_pos h]

theorem forBatches_ofText (text : List Char) : forBatches body endBatch i (ofText text) a =
    (untilBlank body i (ofText text) a).bind fun r =>
      forBatches body endBatch r.1 r.2.1 (endBatch r.2.2) := by
  rw [forBatches, if_neg (by simp [ofText]), if_neg (by simp [ofText])]
  split
  · rename_i heq
    rw [heq]
    rfl
  · rename_i heq
    rw [heq]
    rfl

theorem getline_unterminated (hline : '\n' ∉ line) (hne : line ≠ []) :
    (ofText line).getline = (some line, ⟨[], true, false⟩) := by
  have hdrop : line.dropWhile (fun c => decide (c ≠ '\n')) = [] :=
    List.dropWhile_eq_nil_iff.mpr fun c hc => decide_eq_true fun h => hline (h ▸ hc)
  unfold getline ofText good
  rw [if_neg (by simp), if_neg hne]
  dsimp only
  rw [hdrop]

/-- The line behind the last line end. -/
theorem forBatches_last (hline : '\n' ∉ line) :
    forBatches body endBatch i (ofText line) a = onLines body endBatch i [line] a := by
  rw [forBatches_ofText, onLines]
  split_ifs with hnil
  · have hend : (ofText line).getline = (none, ⟨[], true, true⟩) := by rw [hnil]; rfl
    rw [untilBlank_end hend]
    exact forBatches_eof rfl
  · rw [untilBlank_line (getline_unterminated hline hnil), if_neg hnil]
    rcases body i line a with - | ⟨- | -, b⟩
    · rfl
    · exact forBatches_eof rfl
    · -- the next `getline` fails at the end that this one has noticed
      have hend : (⟨[], true, false⟩ : InputStream).getline = (none, ⟨[], true, true⟩) := rfl
      dsimp only
      rw [untilBlank_end hend]
      exact forBatches_eof rfl

/-- The loops go through the lines of a text. -/
theorem forBatches_text (text : List Char) (i : ℕ) (a : α) :
    forBatches body endBatch i (ofText text) a =
      onLines body endBatch i (text.splitOn '\n') a := by
  induction hlen : text.length using Nat.strong_induction_on generalizing text i a with
  | h len ih =>
    by_cases hmem : '\n' ∈ text
    · obtain ⟨line, rest, rfl, hline⟩ := List.eq_append_cons_of_mem hmem
      obtain ⟨next, lines, hnext⟩ := List.exists_cons_of_ne_nil (List.splitOn_ne_nil '\n' rest)
      have hrest (j : ℕ) (b : α) : forBatches body endBatch j (ofText rest) b =
          onLines body endBatch j (next :: lines) b := by
        rw [← hnext]
        refine ih rest.length ?_ rest j b rfl
        rw [← hlen, List.length_append, List.length_cons]
        omega
      rw [forBatches_ofText, untilBlank_line (getline_line hline rest),
        List.splitOn_append_cons_self_of_not_mem hline, hnext, onLines]
      split_ifs with hnil
      · exact hrest (i + 1) (endBatch a)
      · rcases body i line a with - | ⟨- | -, b⟩
        · rfl
        · exact hrest (i + 1) (endBatch b)
        · exact (forBatches_ofText rest).symm.trans (hrest (i + 1) b)
    · rw [List.splitOn_eq_singleton hmem]
      exact forBatches_last hmem

theorem onLines_cons {lines : List (List Char)} (hne : lines ≠ []) :
    onLines body endBatch i (line :: lines) a =
      if line = [] then onLines body endBatch (i + 1) lines (endBatch a)
      else match body i line a with
        | none => none
        | some (false, a) => onLines body endBatch (i + 1) lines (endBatch a)
        | some (true, a) => onLines body endBatch (i + 1) lines a := by
  obtain ⟨next, lines, rfl⟩ := List.exists_cons_of_ne_nil hne
  rw [onLines]

/-- The loops only end when the body ends on every line that is not empty. -/
theorem of_onLines_isSome {P : List Char → Prop}
    (hbody : ∀ i line a, line ≠ [] → (body i line a).isSome → P line) {lines : List (List Char)}
    (h : (onLines body endBatch i lines a).isSome) : ∀ line ∈ lines, line ≠ [] → P line := by
  fun_induction onLines body endBatch i lines a with
  | case1 => simp
  | case2 => simp
  | case3 i line a hne =>
    rw [Option.isSome_map] at h
    simpa [hne] using hbody i line a hne h
  | case4 i next lines a ih => simpa using ih h
  | case5 => contradiction
  | case6 i line next lines a hne b hbreak ih | case7 i line next lines a hne b hbreak ih =>
    have hline : P line := hbody i line a hne (by rw [hbreak]; rfl)
    exact List.forall_mem_cons.mpr ⟨fun _ => hline, ih h⟩

theorem onLines_isSome (lines : List (List Char))
    (h : ∀ line ∈ lines, line ≠ [] → ∀ i a, (body i line a).isSome) (i : ℕ) (a : α) :
    (onLines body endBatch i lines a).isSome := by
  fun_induction onLines body endBatch i lines a with
  | case1 => rfl
  | case2 => rfl
  | case3 i line a hne =>
    rw [Option.isSome_map]
    exact h line List.mem_cons_self hne i a
  | case4 i next lines a ih => exact ih (List.forall_mem_cons.mp h).2
  | case5 i line next lines a hne hnone =>
    have hsome := h line List.mem_cons_self hne i a
    rw [hnone] at hsome
    contradiction
  | case6 i line next lines a hne b hbreak ih | case7 i line next lines a hne b hbreak ih =>
    exact ih (List.forall_mem_cons.mp h).2

/-- With a body that is given a number of turns, and that ends within the length of a line on the lines
that it ends on at all. -/
theorem forBatches_isSome_iff {body : ℕ → ℕ → List Char → α → Option (Bool × α)}
    {P : List Char → Prop} (hof : ∀ fuel i line a, (body fuel i line a).isSome → P line)
    (hto : ∀ fuel line, line.length ≤ fuel → P line → ∀ i a, (body fuel i line a).isSome)
    (text : List Char) (a : α) :
    (∃ fuel, (forBatches (body fuel) endBatch 0 (ofText text) a).isSome) ↔
      ∀ line ∈ text.splitOn '\n', line ≠ [] → P line := by
  simp only [forBatches_text]
  constructor
  · rintro ⟨fuel, h⟩
    exact of_onLines_isSome (fun i line a _ hline => hof fuel i line a hline) h
  · intro h
    refine ⟨(text.splitOn '\n').flatten.length, ?_⟩
    apply onLines_isSome
    intro line hline hne
    exact hto _ line (List.sublist_flatten_of_mem hline).length_le (h line hline hne)

end Lines

end TextStreams
