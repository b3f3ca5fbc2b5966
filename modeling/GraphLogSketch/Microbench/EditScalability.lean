import GraphLogSketch.Library.Grouping
import GraphLogSketch.Scripts.DivideIntoBatches

/-! The edit scalability benchmark: batches read line by line from a workload, each one ingested and
followed by a run of the algorithm. `none` is undefined behaviour. -/
namespace Microbench.EditScalability
open TextStreams TextStreams.InputStream Tiling Workload Grouping Scripts.DivideIntoBatches

/-- `validate_vertex`; a release build has no bound. -/
def validateVertex (numVertices : Option UInt64) (vertex : UInt64) : Bool :=
  match numVertices with
  | none => true
  | some numVertices => vertex < numVertices

/-- `while (!batch.eof())`: the destinations in the rest of a line. A stream that has failed in front of
its end stores nothing any more. -/
def readDsts (numVertices : Option UInt64) (batch : InputStream) : Option (List UInt64) :=
  if batch.eof then some []
  else
    match _ : batch.extract with
    | (none, _) => none
    | (some tmp, batch) => do
      let dsts ← readDsts numVertices batch
      return if validateVertex numVertices tmp then tmp :: dsts else dsts
termination_by if batch.fail then 0 else batch.rest.length + 1
decreasing_by
  rename_i h
  obtain ⟨hfail, hlt⟩ := extract_progress h
  rw [hfail, if_neg Bool.false_ne_true]
  split_ifs with hnext
  · exact Nat.succ_pos _
  · exact Nat.succ_lt_succ (hlt (Bool.eq_false_of_not_eq_true hnext))

/-- The insertions up to a blank line, a source that is out of range, or the end. A line of white space
leaves the source as it was, which only matters where it is validated. -/
def readBatch (numVertices : Option UInt64) (file : InputStream) :
    Option (List Edge × InputStream) :=
  match _ : file.getline with
  | (none, file) => some ([], file)
  | (some batchRaw, file) =>
    if batchRaw = [] then some ([], file)
    else
      match (ofText batchRaw).extract with
      | (none, _) => if numVertices = none then readBatch numVertices file else none
      | (some src, batch) =>
        if ¬ validateVertex numVertices src then some ([], file)
        else do
          let dsts ← readDsts numVertices batch
          let (insertions, file) ← readBatch numVertices file
          return (dsts.map (fun tmp => (src, tmp)) ++ insertions, file)
termination_by file.rest.length
decreasing_by all_goals exact (getline_some (by assumption)).2

/-- Reading a batch takes a line, or finds the end. -/
theorem readBatch_progress {numVertices : Option UInt64} {file file' : InputStream}
    {insertions : List Edge} (hs : file.fail = true → file.eof = true)
    (h : readBatch numVertices file = some (insertions, file')) :
    file'.eof = true ∨ file'.rest.length < file.rest.length := by
  fun_induction readBatch numVertices file generalizing insertions file' with
  | case1 file file₁ hline =>
    obtain ⟨-, rfl⟩ := Prod.mk.inj (Option.some.inj h)
    exact Or.inl (getline_none hs hline)
  | case2 file file₁ hline =>
    obtain ⟨-, rfl⟩ := Prod.mk.inj (Option.some.inj h)
    exact Or.inr (getline_some hline).2
  | case3 file line file₁ hline _ _ _ _ ih =>
    obtain ⟨hfail, hlt⟩ := getline_some hline
    have hstep := ih (fun h => absurd (hfail.symm.trans h) Bool.false_ne_true) h
    exact hstep.imp_right fun h => h.trans hlt
  | case4 => contradiction
  | case5 file line file₁ hline =>
    obtain ⟨-, rfl⟩ := Prod.mk.inj (Option.some.inj h)
    exact Or.inr (getline_some hline).2
  | case6 file line file₁ hline _ src batch _ _ ih =>
    obtain ⟨hfail, hlt⟩ := getline_some hline
    obtain ⟨dsts, -, h⟩ := Option.bind_eq_some_iff.mp h
    obtain ⟨⟨rest, file₂⟩, hrest, h⟩ := Option.bind_eq_some_iff.mp h
    obtain ⟨-, rfl⟩ := Prod.mk.inj (Option.some.inj h)
    have hstep := ih (fun h => absurd (hfail.symm.trans h) Bool.false_ne_true) hrest
    exact hstep.imp_right fun h => h.trans hlt

/-- `while (!in->eof())`; without end when the stream has failed in front of its end. -/
def readBatches (numVertices : Option UInt64) (file : InputStream) : Option (List (List Edge)) :=
  if file.eof then some []
  else if file.fail then none
  else
    match _ : readBatch numVertices file with
    | none => none
    | some (insertions, file) => do
      let batches ← readBatches numVertices file
      return insertions :: batches
termination_by if file.eof then 0 else file.rest.length + 1
decreasing_by
  rename_i heof hfail h
  rw [if_neg heof]
  split_ifs with hend
  · exact Nat.succ_pos _
  · have hlt := (readBatch_progress (fun h => absurd h hfail) h).resolve_left hend
    exact Nat.succ_lt_succ hlt

/-- What the benchmark does to the graph, and with it. -/
inductive Event where
  | ingest (insertions : List (UInt64 × List UInt64))
  | postIngest
  | algo
  deriving DecidableEq, Repr

/-- One turn of the loop; the map of insertions has an order of its own. -/
def batchEvents (hashOrder : List (UInt64 × List UInt64) → List (UInt64 × List UInt64))
    (insertions : List Edge) : List Event :=
  let insertionsVec := hashOrder (grouped insertions)
  (if insertionsVec ≠ [] then [.ingest insertionsVec, .postIngest] else []) ++ [.algo]

def main (hashOrder : List (UInt64 × List UInt64) → List (UInt64 × List UInt64))
    (numVertices : Option UInt64) (input : List Char) : Option (List Event) := do
  let batches ← readBatches numVertices (ofText input)
  return batches.flatMap (batchEvents hashOrder)

section Reading
variable {numVertices : Option UInt64} {w : List Line}

/-- The batches that are read from a workload. -/
def lineBatches (numVertices : Option UInt64) : List Line → List (List Edge)
  | [] => [[]]
  | .execute :: w => [] :: lineBatches numVertices w
  | .insert src dsts :: w =>
    if ¬ validateVertex numVertices src then [] :: lineBatches numVertices w
    else
      match lineBatches numVertices w with
      | [] => []
      | b :: bs =>
        ((dsts.filter (validateVertex numVertices)).map (fun tmp => (src, tmp)) ++ b) :: bs

theorem readDsts_step (numVertices : Option UInt64) {batch batch' : InputStream} {tmp : UInt64}
    (heof : batch.eof = false) (h : batch.extract = (some tmp, batch')) :
    readDsts numVertices batch = (readDsts numVertices batch').map fun dsts =>
      if validateVertex numVertices tmp then tmp :: dsts else dsts := by
  rw [readDsts, if_neg (by simp [heof])]
  split
  · rename_i heq
    rw [h] at heq
    exact absurd (Prod.mk.inj heq).1 (Option.some_ne_none _)
  · rename_i heq
    rw [h] at heq
    obtain ⟨htmp, rfl⟩ := Prod.mk.inj heq
    obtain rfl := Option.some.inj htmp
    rw [Option.map_eq_bind]
    rfl

theorem readDsts_text (numVertices : Option UInt64) (dsts : List UInt64) :
    readDsts numVertices ⟨dstsText dsts, (dstsText dsts).isEmpty, false⟩ =
      some (dsts.filter (validateVertex numVertices)) := by
  induction dsts with
  | nil =>
    rw [readDsts]
    rfl
  | cons dst dsts ih =>
    have hread := extract_digits dst [' '] (dstsText dsts) (by simp; decide) (dstsText_head dsts)
    have hstep := readDsts_step numVertices rfl hread
    rw [ih, Option.map_some, ← List.filter_cons] at hstep
    exact hstep

theorem readBatch_insert (numVertices : Option UInt64) {file file' : InputStream} {src : UInt64}
    {dsts : List UInt64} (h : file.getline = (some (Line.insert src dsts).text, file')) :
    readBatch numVertices file =
      if ¬ validateVertex numVertices src then some ([], file')
      else (readBatch numVertices file').map fun r =>
        ((dsts.filter (validateVertex numVertices)).map (fun tmp => (src, tmp)) ++ r.1, r.2) := by
  have hsrc := extract_digits src [] (dstsText dsts) (by simp) (dstsText_head dsts)
  rw [readBatch]
  split
  · rename_i heq
    rw [h] at heq
    exact absurd (Prod.mk.inj heq).1 (Option.some_ne_none _)
  · rename_i heq
    rw [h] at heq
    obtain ⟨hline, rfl⟩ := Prod.mk.inj heq
    rw [← Option.some.inj hline, if_neg (text_insert_ne_nil src dsts)]
    show (match (ofText ([] ++ (digits src ++ _))).extract with
      | (none, _) => _
      | (some src, batch) => _) = _
    rw [hsrc]
    dsimp only
    rw [readDsts_text, Option.map_eq_bind]
    rfl

theorem readBatch_blank {file file' : InputStream} (h : file.getline = (some [], file')) :
    readBatch numVertices file = some ([], file') := by
  rw [readBatch]
  split
  · rename_i heq
    rw [h] at heq
    exact absurd (Prod.mk.inj heq).1 (Option.some_ne_none _)
  · rename_i heq
    rw [h] at heq
    obtain ⟨hline, rfl⟩ := Prod.mk.inj heq
    exact if_pos (Option.some.inj hline).symm

/-- A batch of a workload is read, and what is left is the rest of the workload, or nothing. -/
theorem readBatch_text (numVertices : Option UInt64) (w : List Line) :
    ∃ b bs file, lineBatches numVertices w = b :: bs ∧
      readBatch numVertices (ofText (text w)) = some (b, file) ∧
      (file.eof = true ∧ bs = [] ∨
        ∃ w', w'.length < w.length ∧ file = ofText (text w') ∧ bs = lineBatches numVertices w') := by
  induction w with
  | nil =>
    rw [readBatch]
    exact ⟨[], [], ⟨[], true, true⟩, rfl, rfl, Or.inl ⟨rfl, rfl⟩⟩
  | cons line w ih =>
    have hline := getline_line (newline_notMem_text line) (text w)
    rw [← text_cons] at hline
    have hshorter : w.length < (line :: w).length := Nat.lt_succ_self _
    cases line with
    | execute => exact ⟨_, _, _, rfl, readBatch_blank hline, Or.inr ⟨w, hshorter, rfl, rfl⟩⟩
    | insert src dsts =>
      have hread := readBatch_insert numVertices hline
      rw [hread, lineBatches]
      split_ifs with hvalid
      · obtain ⟨b, bs, file, hbatches, hrest, hleft⟩ := ih
        rw [hbatches, hrest]
        refine ⟨_, bs, file, rfl, rfl, hleft.imp_right ?_⟩
        rintro ⟨w', hlt, hfile⟩
        exact ⟨w', hlt.trans hshorter, hfile⟩
      · exact ⟨_, _, _, rfl, rfl, Or.inr ⟨w, hshorter, rfl, rfl⟩⟩

theorem execute_lt_lineBatches (numVertices : Option UInt64) (w : List Line) :
    w.count .execute < (lineBatches numVertices w).length := by
  induction w with
  | nil => exact Nat.one_pos
  | cons line w ih =>
    cases line with
    | execute =>
      rw [List.count_cons_self]
      exact Nat.succ_lt_succ ih
    | insert src dsts =>
      rw [List.count_cons_of_ne (by simp), lineBatches]
      split_ifs
      · rcases hbs : lineBatches numVertices w with - | ⟨b, bs⟩
        · rw [hbs] at ih
          contradiction
        · rw [hbs] at ih
          exact ih
      · exact ih.trans (Nat.lt_succ_self _)

/-- The loop ends on every workload, with all its batches. -/
theorem readBatches_text (numVertices : Option UInt64) (w : List Line) :
    readBatches numVertices (ofText (text w)) = some (lineBatches numVertices w) := by
  induction hlen : w.length using Nat.strong_induction_on generalizing w with
  | h len ih =>
    obtain ⟨b, bs, file, hbatches, hread, hleft⟩ := readBatch_text numVertices w
    have hrest : readBatches numVertices file = some bs := by
      rcases hleft with ⟨heof, rfl⟩ | ⟨w', hlt, rfl, rfl⟩
      · rw [readBatches, if_pos heof]
      · exact ih _ (hlen ▸ hlt) w' rfl
    rw [readBatches, if_neg (by simp [ofText]), if_neg (by simp [ofText])]
    split
    · rename_i heq
      rw [hread] at heq
      contradiction
    · rename_i heq
      rw [hread] at heq
      obtain ⟨rfl, rfl⟩ := Prod.mk.inj (Option.some.inj heq)
      rw [hrest, hbatches]
      rfl

end Reading

section Runs
variable {hashOrder : List (UInt64 × List UInt64) → List (UInt64 × List UInt64)}

/-- The edges that have been ingested, in front of each run of the algorithm. -/
def executions (seen : List Edge) : List Event → List (List Edge)
  | [] => []
  | .ingest insertions :: events => executions (seen ++ pairs insertions) events
  | .postIngest :: events => executions seen events
  | .algo :: events => seen :: executions seen events

/-- One run for each batch, after the edges up to and with it. -/
structure RunsAfterEach (bs : List (List Edge)) (events : List Event) : Prop where
  count : (executions [] events).length = bs.length
  runs : ∀ i < bs.length, ((executions [] events).getD i []).Perm (bs.take (i + 1)).flatten

/-- A batch ingests its edges, if it has any, and runs the algorithm. -/
theorem batchEvents_cases (hhash : ∀ l, (hashOrder l).Perm l) (b : List Edge) :
    (∃ m, (pairs m).Perm b ∧ batchEvents hashOrder b = [.ingest m, .postIngest, .algo]) ∨
      b = [] ∧ batchEvents hashOrder b = [.algo] := by
  have hpairs : (pairs (hashOrder (grouped b))).Perm b :=
    (pairs_perm (hhash _)).trans (pairs_grouped b)
  unfold batchEvents
  dsimp only
  split_ifs with hne
  · exact Or.inl ⟨_, hpairs, rfl⟩
  · rw [not_not.mp hne] at hpairs
    exact Or.inr ⟨hpairs.nil_eq.symm, rfl⟩

theorem executions_batchEvents (hhash : ∀ l, (hashOrder l).Perm l) (seen b : List Edge)
    (events : List Event) : ∃ seen', seen'.Perm (seen ++ b) ∧
      executions seen (batchEvents hashOrder b ++ events) = seen' :: executions seen' events := by
  rcases batchEvents_cases hhash b with ⟨m, hpairs, hevents⟩ | ⟨rfl, hevents⟩
  · rw [hevents]
    exact ⟨_, hpairs.append_left seen, rfl⟩
  · rw [hevents]
    exact ⟨seen, by rw [List.append_nil], rfl⟩

theorem executions_spec (hhash : ∀ l, (hashOrder l).Perm l) (bs : List (List Edge))
    (seen : List Edge) :
    (executions seen (bs.flatMap (batchEvents hashOrder))).length = bs.length ∧
      ∀ i < bs.length, ((executions seen (bs.flatMap (batchEvents hashOrder))).getD i []).Perm
        (seen ++ (bs.take (i + 1)).flatten) := by
  induction bs generalizing seen with
  | nil => exact ⟨rfl, fun i hi => absurd hi (Nat.not_lt_zero i)⟩
  | cons b bs ih =>
    obtain ⟨seen', hperm, hruns⟩ :=
      executions_batchEvents hhash seen b (bs.flatMap (batchEvents hashOrder))
    obtain ⟨hcount, hrest⟩ := ih seen'
    rw [List.flatMap_cons, hruns]
    refine ⟨congrArg Nat.succ hcount, fun i hi => ?_⟩
    cases i with
    | zero => simpa using hperm
    | succ i =>
      have hi := hrest i (Nat.lt_of_succ_lt_succ hi)
      rw [List.getD_cons_succ, List.take_succ_cons, List.flatten_cons, ← List.append_assoc]
      exact hi.trans (hperm.append_right _)

end Runs

section Divided
variable {hashOrder : List (UInt64 × List UInt64) → List (UInt64 × List UInt64)}
  {randomShuffle : Option (List Edge → List Edge)} {input : List Char}
  {numVertices : Option UInt64} {numBatches : UInt64} {es : List Edge} {b : ℕ}

def InRange (numVertices : Option UInt64) (es : List Edge) : Prop :=
  ∀ e ∈ es, validateVertex numVertices e.1 = true ∧ validateVertex numVertices e.2 = true

theorem lineBatches_linesFrom {src : UInt64} {dsts : List UInt64}
    (hsrc : validateVertex numVertices src = true)
    (hdsts : ∀ d ∈ dsts, validateVertex numVertices d = true) (hes : InRange numVertices es)
    (w : List Line) :
    lineBatches numVertices (linesFrom src dsts es ++ .execute :: w) =
      (dsts.map (fun dst => (src, dst)) ++ es) :: lineBatches numVertices w := by
  induction es generalizing src dsts with
  | nil => simp [linesFrom, lineBatches, hsrc, List.filter_eq_self.mpr hdsts]
  | cons e es ih =>
    obtain ⟨hsrc', hdst'⟩ := hes e List.mem_cons_self
    have hes' : InRange numVertices es := fun e he => hes e (List.mem_cons_of_mem _ he)
    rw [linesFrom]
    split_ifs with hsame
    · have hall : ∀ d ∈ dsts ++ [e.2], validateVertex numVertices d = true := by
        intro d hd
        rcases List.mem_append.mp hd with hd | hd
        · exact hdsts d hd
        · exact List.mem_singleton.mp hd ▸ hdst'
      rw [ih hsrc hall hes', ← hsame]
      simp
    · rw [List.cons_append, lineBatches, if_neg (not_not.mpr hsrc),
        ih hsrc' (by simpa using hdst') hes', List.filter_eq_self.mpr hdsts]
      rfl

theorem lineBatches_batchLines (hne : es ≠ []) (hes : InRange numVertices es) (w : List Line) :
    lineBatches numVertices (batchLines es ++ w) = es :: lineBatches numVertices w := by
  obtain ⟨e, es, rfl⟩ := List.exists_cons_of_ne_nil hne
  obtain ⟨hsrc, hdst⟩ := hes e List.mem_cons_self
  rw [batchLines, List.append_assoc]
  exact lineBatches_linesFrom hsrc (by simpa using hdst)
    (fun e he => hes e (List.mem_cons_of_mem _ he)) w

/-- No edge of a file is lost on the way, where none is out of range. -/
theorem flatten_lineBatches {w : List Line} (hes : InRange numVertices (edges w)) :
    (lineBatches numVertices w).flatten = edges w := by
  induction w with
  | nil => rfl
  | cons line w ih =>
    have hrest := ih fun e he => hes e (List.mem_append_right _ he)
    cases line with
    | execute => exact hrest
    | insert src dsts =>
      have hline : ∀ dst ∈ dsts, validateVertex numVertices src = true ∧
          validateVertex numVertices dst = true := fun dst hdst =>
        hes (src, dst) (List.mem_append_left _ (List.mem_map_of_mem hdst))
      have hedges : edges (.insert src dsts :: w) = dsts.map (fun dst => (src, dst)) ++ edges w := rfl
      rw [lineBatches, hedges]
      split_ifs with hvalid
      · obtain ⟨b, bs, hbs⟩ := List.exists_cons_of_length_pos
          (Nat.zero_lt_of_lt (execute_lt_lineBatches numVertices w))
        rw [hbs] at hrest ⊢
        rw [List.flatten_cons, List.append_assoc, ← List.flatten_cons, hrest,
          List.filter_eq_self.mpr fun dst hdst => (hline dst hdst).2]
      · obtain rfl : dsts = [] := List.eq_nil_iff_forall_not_mem.mpr fun dst hdst =>
          hvalid (hline dst hdst).1
        exact hrest

/-- Each batch of a divided list has an edge. -/
theorem batch_ne_nil (hdvd : b ∣ es.length) (hne : es ≠ []) {i : ℕ} (hi : i < b) :
    batch es b i ≠ [] := by
  obtain ⟨q, hq⟩ := hdvd
  have hb := Nat.zero_lt_of_lt hi
  have hpos := List.length_pos_of_ne_nil hne
  have hqpos : 0 < q := Nat.pos_of_mul_pos_left (hq ▸ hpos)
  have hnext : i * q + q ≤ b * q := by
    rw [← Nat.succ_mul]
    exact Nat.mul_le_mul_right q hi
  have hlen : (batch es b i).length = q := by
    unfold batch
    rw [List.length_take, List.length_drop, hq, blockStart_mul q hb hi.le, blockStart_mul q hb hi,
      Nat.succ_mul]
    omega
  intro hnil
  rw [hnil] at hlen
  exact hqpos.ne hlen

theorem mem_of_mem_batch {i : ℕ} {e : Edge} (he : e ∈ (batch es b i).mergeSort edgeLe) : e ∈ es :=
  List.mem_of_mem_drop (List.mem_of_mem_take (List.mem_mergeSort.mp he))

/-- After the batches of the file there is an empty one. -/
theorem lineBatches_workload (hdvd : b ∣ es.length) (hne : es ≠ []) (hes : InRange numVertices es) :
    lineBatches numVertices (workload es b) =
      (List.range b).map (fun i => (batch es b i).mergeSort edgeLe) ++ [[]] := by
  have hall (is : List ℕ) (his : ∀ i ∈ is, i < b) :
      lineBatches numVertices (is.flatMap fun i => batchLines ((batch es b i).mergeSort edgeLe)) =
        is.map (fun i => (batch es b i).mergeSort edgeLe) ++ [[]] := by
    induction is with
    | nil => rfl
    | cons i is ih =>
      have hbatch : (batch es b i).mergeSort edgeLe ≠ [] := by
        intro hnil
        have hperm := List.mergeSort_perm (batch es b i) edgeLe
        rw [hnil] at hperm
        exact batch_ne_nil hdvd hne (his i List.mem_cons_self) hperm.nil_eq.symm
      rw [List.flatMap_cons, lineBatches_batchLines hbatch fun e he => hes e (mem_of_mem_batch he),
        ih fun i hi => his i (List.mem_cons_of_mem _ hi)]
      rfl
  exact hall _ fun i hi => List.mem_range.mp hi

theorem fits_of_dvd {n : ℕ} (hb : 0 < b) (hdvd : b ∣ n) (hn : 0 < n) (hsize : 16 * n ≤ 2 ^ 64) :
    Fits n b := by
  have hle := Nat.le_of_dvd hn hdvd
  obtain ⟨q, rfl⟩ := hdvd
  refine ⟨by omega, ?_⟩
  rw [blockSize_mul q hb]
  exact Nat.mul_le_mul_right q (Nat.sub_le b 1)

/-- The batches that the division makes of an edge list. -/
def batches (es : List Edge) (b : ℕ) : List (List Edge) := (List.range b).map (batch es b)

theorem main_text (numVertices : Option UInt64) (w : List Line) :
    main hashOrder numVertices (text w) =
      some ((lineBatches numVertices w).flatMap (batchEvents hashOrder)) := by
  rw [main, readBatches_text]
  rfl

/-- The first batches that are read have the edges of the first batches of the list. -/
theorem flatten_take_lineBatches (hdvd : b ∣ es.length) (hne : es ≠ [])
    (hes : InRange numVertices es) {k : ℕ} :
    ((lineBatches numVertices (workload es b)).take k).flatten.Perm
      ((batches es b).take k).flatten := by
  have hempty (k : ℕ) : ([[]].take k : List (List Edge)).flatten = [] := by
    cases k with
    | zero => rfl
    | succ k => simp
  rw [lineBatches_workload hdvd hne hes, List.take_append, List.flatten_append, hempty,
    List.append_nil]
  unfold batches
  rw [← List.map_take, ← List.map_take, ← List.flatMap_def, ← List.flatMap_def]
  exact List.Perm.flatMap_left _ fun i _ => List.mergeSort_perm _ _

/-- One run after each batch, and one more at the end of the file. -/
theorem main_executions (hhash : ∀ l, (hashOrder l).Perm l)
    (hshuffle : ∀ f ∈ randomShuffle, ∀ l, (f l).Perm l) (hne : readEdges input ≠ [])
    (hsize : 16 * (readEdges input).length ≤ 2 ^ 64) (hb : 0 < numBatches.toNat)
    (hdvd : numBatches.toNat ∣ (readEdges input).length)
    (hrange : InRange numVertices (readEdges input)) :
    ∃ file events, Scripts.DivideIntoBatches.main randomShuffle input numBatches = some file ∧
      main hashOrder numVertices file = some events ∧
      (executions [] events).length = numBatches.toNat + 1 ∧
      ∀ i ≤ numBatches.toNat, ((executions [] events).getD i []).Perm
        ((batches (shuffled randomShuffle input) numBatches.toNat).take (i + 1)).flatten := by
  have hperm := shuffled_perm hshuffle input
  have hlen := hperm.length_eq
  have hpos := List.length_pos_of_ne_nil hne
  have hne' : shuffled randomShuffle input ≠ [] := by
    intro hnil
    rw [hnil] at hlen
    exact hpos.ne hlen
  have hfile := main_eq hshuffle hne (by omega) hb (fits_of_dvd hb hdvd hpos hsize)
  have hdvd : numBatches.toNat ∣ (shuffled randomShuffle input).length := by rwa [hlen]
  have hrange : InRange numVertices (shuffled randomShuffle input) :=
    fun e he => hrange e (hperm.mem_iff.mp he)
  obtain ⟨hcount, hruns⟩ := executions_spec hhash
    (lineBatches numVertices (workload (shuffled randomShuffle input) numBatches.toNat)) []
  have htotal : (lineBatches numVertices
      (workload (shuffled randomShuffle input) numBatches.toNat)).length = numBatches.toNat + 1 := by
    rw [lineBatches_workload hdvd hne' hrange]
    simp
  refine ⟨_, _, hfile, main_text numVertices _, hcount.trans htotal, fun i hi => ?_⟩
  exact (hruns i (htotal ▸ Nat.lt_succ_of_le hi)).trans
    (flatten_take_lineBatches hdvd hne' hrange)

/-- The benchmark runs the algorithm more often than the file has batches: behind the last blank line
the end of the file has not been noticed yet. -/
theorem lt_executions (hhash : ∀ l, (hashOrder l).Perm l) {file : List Char} {events : List Event}
    (hfile : Scripts.DivideIntoBatches.main randomShuffle input numBatches = some file)
    (hrun : main hashOrder numVertices file = some events) :
    numBatches.toNat < (executions [] events).length := by
  have hmore : ∃ w, file = text w ∧ numBatches.toNat ≤ w.count .execute := by
    unfold Scripts.DivideIntoBatches.main at hfile
    dsimp only at hfile
    split_ifs at hfile with hnil hzero
    · exact ⟨[], (Option.some.inj hfile).symm, by rw [hzero]; exact Nat.zero_le _⟩
    · exact execute_of_writeBatches hfile
  obtain ⟨w, rfl, hcount⟩ := hmore
  rw [main_text] at hrun
  rw [← Option.some.inj hrun, (executions_spec hhash _ []).1]
  exact hcount.trans_lt (execute_lt_lineBatches numVertices w)

end Divided

/-- On a divided file the algorithm never runs once for each batch: there is one run after each of them,
but then another one. -/
theorem main_runs_again (hashOrder : List (UInt64 × List UInt64) → List (UInt64 × List UInt64))
    (hhash : ∀ l, (hashOrder l).Perm l) (randomShuffle : Option (List Edge → List Edge))
    (hshuffle : ∀ f ∈ randomShuffle, ∀ l, (f l).Perm l) (input : List Char)
    (hne : readEdges input ≠ []) (numBatches : UInt64) (hb : 1 ≤ numBatches)
    (hdvd : numBatches.toNat ∣ (readEdges input).length) (numVertices : Option UInt64) :
    (¬ ∃ file events, Scripts.DivideIntoBatches.main randomShuffle input numBatches = some file ∧
      main hashOrder numVertices file = some events ∧
      RunsAfterEach (batches (shuffled randomShuffle input) numBatches.toNat) events) ∧
    (16 * (readEdges input).length ≤ 2 ^ 64 → InRange numVertices (readEdges input) →
      ∃ file events, Scripts.DivideIntoBatches.main randomShuffle input numBatches = some file ∧
        main hashOrder numVertices file = some events ∧
        (executions [] events).length = numBatches.toNat + 1 ∧
        ∀ i ≤ numBatches.toNat, ((executions [] events).getD i []).Perm
          ((batches (shuffled randomShuffle input) numBatches.toNat).take (i + 1)).flatten) := by
  constructor
  · rintro ⟨file, events, hfile, hrun, hruns⟩
    have hlt := lt_executions hhash hfile hrun
    rw [hruns.count, batches, List.length_map, List.length_range] at hlt
    exact hlt.false
  · intro hsize hrange
    exact main_executions hhash hshuffle hne hsize (UInt64.le_iff_toNat_le.mp hb) hdvd hrange

/-- A single edge and a single batch, but two runs. -/
theorem main_oneEdge :
    Scripts.DivideIntoBatches.main none (edgesText [(0, 1)]) 1 = some ['0', ' ', '1', '\n', '\n'] ∧
      main id none ['0', ' ', '1', '\n', '\n'] =
        some [.ingest [(0, [1])], .postIngest, .algo, .algo] ∧
      ¬ RunsAfterEach (batches [(0, 1)] 1) [.ingest [(0, [1])], .postIngest, .algo, .algo] := by
  have hread := readEdges_edgesText [(0, 1)]
  refine ⟨?_, ?_, fun h => absurd h.count (by decide)⟩
  · have hfile : Scripts.DivideIntoBatches.main none (edgesText [(0, 1)]) 1 = _ := main_eq (by simp)
      (by rw [hread]; decide) (by rw [hread]; decide) (by decide) (by rw [hread]; decide)
    rw [hfile, shuffled, hread, workload]
    have hbatch : batch [(0, 1)] 1 0 = [(0, 1)] := by decide
    show some (text (batchLines ((batch [(0, 1)] 1 0).mergeSort edgeLe) ++ [])) = _
    rw [hbatch, List.mergeSort_singleton]
    decide
  · exact main_text none [.insert 0 [1], .execute]

theorem main_runs_again_two : ¬ ∃ file events,
    Scripts.DivideIntoBatches.main none (edgesText [(2, 0), (0, 1)]) 2 = some file ∧
      main List.reverse none file = some events ∧
      RunsAfterEach (batches (shuffled none (edgesText [(2, 0), (0, 1)])) 2) events := by
  have hread := readEdges_edgesText [(2, 0), (0, 1)]
  exact (main_runs_again List.reverse List.reverse_perm none (by simp)
    (edgesText [(2, 0), (0, 1)]) (by rw [hread]; decide) 2 (by decide) (by rw [hread]; decide)
    none).1

end Microbench.EditScalability
