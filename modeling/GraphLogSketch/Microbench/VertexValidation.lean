import GraphLogSketch.Microbench.WrittenLines

/-! A debug build of the edit scalability benchmark, which passes over vertices that are out of range,
against a release build on the workload without their edges. -/
namespace Microbench.VertexValidation
open TextStreams EditInput Grouping WrittenLines
open EditScalability hiding main readBatches
open Scripts.DivideIntoBatches (Edge)

/-- The lines that have an end, and what is behind the last end. `none` is a blank line. -/
structure WorkloadFile where
  lines : List (Option WrittenLine)
  last : Option WrittenLine

theorem noBlanks_blank : ∀ c ∈ ([] : List Char), isSpace c = true := by simp

theorem noBlanks_oneLine : '\n' ∉ ([] : List Char) := by simp

def noBlanks : Blanks := ⟨[], noBlanks_blank, noBlanks_oneLine⟩

def lineText : Option WrittenLine → List Char
  | none => []
  | some l => l.text noBlanks

def WorkloadFile.text (f : WorkloadFile) : List Char :=
  ['\n'].intercalate (f.lines.map lineText ++ [lineText f.last])

section Restrict
variable (numVertices : Option UInt64)

def edgeValid (e : Edge) : Bool := validateVertex numVertices e.1 && validateVertex numVertices e.2

/-- The edges of a line that have no endpoint out of range. -/
def kept (l : WrittenLine) : List Edge := l.edges.filter (edgeValid numVertices)

/-- The line with these edges only. -/
def restrictLine (l : WrittenLine) : WrittenLine where
  lead := l.lead
  src := l.src
  dsts := l.dsts.filter fun d => edgeValid numVertices (l.src.value, d.2.value)
  separated := fun d hd => l.separated d (List.mem_of_mem_filter hd)

theorem edges_restrictLine (l : WrittenLine) :
    (restrictLine numVertices l).edges = kept numVertices l := by
  unfold kept WrittenLine.edges restrictLine
  rw [List.filter_map]
  rfl

/-- The workload without the edges that have an endpoint out of range. -/
def WorkloadFile.restrict (f : WorkloadFile) : WorkloadFile :=
  ⟨f.lines.map (Option.map (restrictLine numVertices)), f.last.map (restrictLine numVertices)⟩

/-- The batches that are read, from one that has been begun. -/
def writtenBatches (last : Option WrittenLine) : List Edge → List (Option WrittenLine) →
    List (List Edge)
  | current, [] => [current ++ last.elim [] (kept numVertices)]
  | current, none :: lines => current :: writtenBatches last [] lines
  | current, some l :: lines =>
    if validateVertex numVertices l.src.value then
      writtenBatches last (current ++ kept numVertices l) lines
    else current :: writtenBatches last [] lines

/-- A line that ends a batch although it is not blank. -/
def breaks : Option WrittenLine → Bool
  | none => false
  | some l => !validateVertex numVertices l.src.value

theorem length_writtenBatches (last : Option WrittenLine) (current : List Edge)
    (lines : List (Option WrittenLine)) : (writtenBatches numVertices last current lines).length =
      lines.countP Option.isNone + lines.countP (breaks numVertices) + 1 := by
  fun_induction writtenBatches numVertices last current lines with
  | case1 => rfl
  | case2 current lines ih =>
    rw [List.length_cons, ih, List.countP_cons_of_pos rfl,
      List.countP_cons_of_neg (by simp [breaks])]
    omega
  | case3 current l lines hvalid ih =>
    rw [ih, List.countP_cons_of_neg (by simp), List.countP_cons_of_neg (by simp [breaks, hvalid])]
  | case4 current l lines hvalid ih =>
    rw [List.length_cons, ih, List.countP_cons_of_neg (by simp),
      List.countP_cons_of_pos (by simp [breaks, hvalid])]
    omega

end Restrict

section Read
variable {numVertices : Option UInt64} {junk : Junk} {fuel : ℕ} {l : WrittenLine}

theorem kept_of_not_valid (h : validateVertex numVertices l.src.value = false) :
    kept numVertices l = [] := by
  rw [kept, List.filter_eq_nil_iff, WrittenLine.edges, List.forall_mem_map]
  intro d _
  simp [edgeValid, h]

theorem readLine_kept (numVertices : Option UInt64) (junk : Junk) (hfuel : l.dsts.length < fuel)
    (i : ℕ) (r : Reading) :
    ∃ r', readLine numVertices junk fuel i (l.text noBlanks) r =
        some (validateVertex numVertices l.src.value, r') ∧ r'.batches = r.batches ∧
      r'.current.insertions = r.current.insertions ++ kept numVertices l := by
  rw [readLine_text hfuel]
  split_ifs with hvalid
  · refine ⟨_, congrArg (fun valid => some (valid, _)) hvalid.symm, rfl, ?_⟩
    dsimp only
    rw [tmps_of_trail rfl, kept, WrittenLine.edges, List.filter_map, List.filter_map, List.map_map]
    congr 3
    funext d
    simp [edgeValid, hvalid]
  · have hvalid : validateVertex numVertices l.src.value = false := by simpa using hvalid
    exact ⟨r, by rw [hvalid], rfl, by rw [kept_of_not_valid hvalid, List.append_nil]⟩

theorem onLines_written (numVertices : Option UInt64) (junk : Junk)
    {last : Option WrittenLine} {lines : List (Option WrittenLine)}
    (hlast : ∀ l, some l = last → l.dsts.length < fuel)
    (hlines : ∀ l, some l ∈ lines → l.dsts.length < fuel) (i : ℕ) (r : Reading) :
    ∃ r', onLines (readLine numVertices junk fuel) endBatch i
        (lines.map lineText ++ [lineText last]) r = some r' ∧
      r'.batches.map Insertions.insertions = r.batches.map Insertions.insertions ++
        writtenBatches numVertices last r.current.insertions lines := by
  induction lines generalizing i r with
  | nil =>
    cases last with
    | none =>
      refine ⟨endBatch r, rfl, ?_⟩
      simp [endBatch, writtenBatches]
    | some l =>
      obtain ⟨r', hread, hbatches, hcurrent⟩ := readLine_kept numVertices junk (hlast l rfl) i r
      refine ⟨endBatch r', ?_, ?_⟩
      · show onLines _ _ i [l.text noBlanks] r = _
        rw [onLines, if_neg text_ne_nil, hread]
        rfl
      · simp [endBatch, writtenBatches, hbatches, hcurrent]
  | cons line lines ih =>
    have ih := ih fun l hl => hlines l (List.mem_cons_of_mem _ hl)
    rw [List.map_cons, List.cons_append, onLines_cons (by simp)]
    cases line with
    | none =>
      obtain ⟨r', hrest, hbatches⟩ := ih (i + 1) (endBatch r)
      refine ⟨r', hrest, hbatches.trans ?_⟩
      simp [endBatch, writtenBatches, Insertions.empty]
    | some l =>
      obtain ⟨r₁, hread, hbatches₁, hcurrent₁⟩ :=
        readLine_kept numVertices junk (hlines l List.mem_cons_self) i r
      rw [lineText, if_neg text_ne_nil, hread, writtenBatches]
      split_ifs with hvalid
      · obtain ⟨r', hrest, hbatches⟩ := ih (i + 1) r₁
        rw [hvalid]
        refine ⟨r', hrest, ?_⟩
        rw [hbatches, hbatches₁, hcurrent₁]
      · have hvalid : validateVertex numVertices l.src.value = false := by simpa using hvalid
        obtain ⟨r', hrest, hbatches⟩ := ih (i + 1) (endBatch r₁)
        rw [hvalid]
        refine ⟨r', hrest, hbatches.trans ?_⟩
        rw [kept_of_not_valid hvalid, List.append_nil] at hcurrent₁
        simp [endBatch, Insertions.empty, hbatches₁, hcurrent₁]

theorem newline_notMem_lineText (line : Option WrittenLine) : '\n' ∉ lineText line := by
  have hdigits (n : Numeral) : '\n' ∉ n.digits := fun h => absurd (n.isDigit _ h) (by decide)
  cases line with
  | none => exact List.not_mem_nil
  | some l =>
    have hblanks (b : Blanks) : '\n' ∉ b.chars := b.oneLine
    simp [lineText, WrittenLine.text, numbersText, hdigits, hblanks]

theorem splitOn_text (f : WorkloadFile) :
    f.text.splitOn '\n' = f.lines.map lineText ++ [lineText f.last] := by
  refine List.splitOn_intercalate '\n' (fun line hline => ?_) (by simp)
  rw [← List.map_singleton, ← List.map_append] at hline
  obtain ⟨line, -, rfl⟩ := List.mem_map.mp hline
  exact newline_notMem_lineText line

/-- A number of turns that the loop over a line does not need. -/
def turns (f : WorkloadFile) : ℕ :=
  ((f.last :: f.lines).map fun line => line.elim 0 fun l => l.dsts.length).sum + 1

theorem lt_turns {f : WorkloadFile} (hl : some l ∈ f.last :: f.lines) :
    l.dsts.length < turns f :=
  Nat.lt_succ_of_le (List.le_sum_of_mem (List.mem_map.mpr ⟨some l, hl, rfl⟩))

theorem main_written (hashOrder : List (UInt64 × List UInt64) → List (UInt64 × List UInt64))
    (numVertices : Option UInt64) (junk : Junk) {f : WorkloadFile} (hfuel : turns f ≤ fuel) :
    main hashOrder numVertices junk fuel f.text =
      some ((writtenBatches numVertices f.last [] f.lines).flatMap (batchEvents hashOrder)) := by
  obtain ⟨r, hread, hbatches⟩ := onLines_written numVertices junk
    (fun l hl => (lt_turns (hl ▸ List.mem_cons_self)).trans_le hfuel)
    (fun l hl => (lt_turns (List.mem_cons_of_mem _ hl)).trans_le hfuel) 0 ⟨[], .empty⟩
  have hbatches : r.batches.map Insertions.insertions =
      writtenBatches numVertices f.last [] f.lines := hbatches
  rw [main, readBatches, forBatches_text, splitOn_text, hread, ← hbatches,
    List.flatMap_map]
  rfl

end Read

section Validation
variable {hashOrder hashOrder' : List (UInt64 × List UInt64) → List (UInt64 × List UInt64)}

/-- The edges that are ingested in front of each run of the algorithm and behind the one before. -/
def batchEdges (ingested : List Edge) : List Event → List (List Edge)
  | [] => []
  | .ingest insertions :: events => batchEdges (ingested ++ pairs insertions) events
  | .postIngest :: events => batchEdges ingested events
  | .algo :: events => ingested :: batchEdges [] events

theorem batchEdges_batchEvents (hhash : ∀ l, (hashOrder l).Perm l) (b : List Edge)
    (events : List Event) : ∃ b', b'.Perm b ∧
      batchEdges [] (batchEvents hashOrder b ++ events) = b' :: batchEdges [] events := by
  rcases batchEvents_cases hhash b with ⟨m, hpairs, hevents⟩ | ⟨rfl, hevents⟩
  · rw [hevents]
    exact ⟨_, hpairs, rfl⟩
  · rw [hevents]
    exact ⟨[], .rfl, rfl⟩

theorem length_batchEdges (hhash : ∀ l, (hashOrder l).Perm l) (bs : List (List Edge)) :
    (batchEdges [] (bs.flatMap (batchEvents hashOrder))).length = bs.length := by
  induction bs with
  | nil => rfl
  | cons b bs ih =>
    obtain ⟨b', -, hb⟩ := batchEdges_batchEvents hhash b (bs.flatMap (batchEvents hashOrder))
    rw [List.flatMap_cons, hb, List.length_cons, ih, List.length_cons]

/-- The order of the map does not decide which edges a batch has. -/
theorem batchEdges_perm (hhash : ∀ l, (hashOrder l).Perm l) (hhash' : ∀ l, (hashOrder' l).Perm l)
    (bs : List (List Edge)) :
    List.Forall₂ List.Perm (batchEdges [] (bs.flatMap (batchEvents hashOrder)))
      (batchEdges [] (bs.flatMap (batchEvents hashOrder'))) := by
  induction bs with
  | nil => exact .nil
  | cons b bs ih =>
    obtain ⟨b₁, hperm₁, hb₁⟩ :=
      batchEdges_batchEvents hhash b (bs.flatMap (batchEvents hashOrder))
    obtain ⟨b₂, hperm₂, hb₂⟩ :=
      batchEdges_batchEvents hhash' b (bs.flatMap (batchEvents hashOrder'))
    rw [List.flatMap_cons, hb₁, List.flatMap_cons, hb₂]
    exact .cons (hperm₁.trans hperm₂.symm) ih

/-- A debug build does on a file what a release build does without the edges that are out of range: as
many batches with a run of the algorithm each, and the same edges in each. -/
def SameBatches (numVertices : UInt64) (f : WorkloadFile) : Prop :=
  ∀ hashOrder hashOrder', (∀ l, (hashOrder l).Perm l) → (∀ l, (hashOrder' l).Perm l) →
    ∀ junk junk', ∃ turns, ∀ fuel ≥ turns, ∃ events events',
      main hashOrder (some numVertices) junk fuel f.text = some events ∧
      main hashOrder' none junk' fuel (f.restrict (some numVertices)).text = some events' ∧
      List.Forall₂ List.Perm (batchEdges [] events) (batchEdges [] events')

variable {numVertices : UInt64} {f : WorkloadFile}

theorem kept_restrictLine (l : WrittenLine) :
    kept none (restrictLine (some numVertices) l) = kept (some numVertices) l := by
  rw [kept, edges_restrictLine]
  exact List.filter_eq_self.mpr fun _ _ => rfl

/-- Without a line that breaks a batch off, the batches are the same. -/
theorem writtenBatches_restrict (last : Option WrittenLine) {lines : List (Option WrittenLine)}
    (h : lines.countP (breaks (some numVertices)) = 0) (current : List Edge) :
    writtenBatches none (last.map (restrictLine (some numVertices))) current
        (lines.map (Option.map (restrictLine (some numVertices)))) =
      writtenBatches (some numVertices) last current lines := by
  induction lines generalizing current with
  | nil =>
    rw [List.map_nil, writtenBatches, writtenBatches]
    cases last with
    | none => rfl
    | some l => exact congrArg (fun edges => [current ++ edges]) (kept_restrictLine l)
  | cons line lines ih =>
    rw [List.countP_cons] at h
    have ih := ih (Nat.eq_zero_of_add_eq_zero_right h)
    cases line with
    | none => exact congrArg (List.cons current) (ih [])
    | some l =>
      have hvalid : validateVertex (some numVertices) l.src.value = true := by
        simpa [breaks] using Nat.eq_zero_of_add_eq_zero_left h
      rw [writtenBatches, if_pos hvalid]
      rw [← ih (current ++ kept (some numVertices) l), List.map_cons, Option.map_some,
        writtenBatches, if_pos (show validateVertex none _ = true from rfl), kept_restrictLine]

theorem countP_breaks_eq_zero {lines : List (Option WrittenLine)} :
    lines.countP (breaks (some numVertices)) = 0 ↔
      ∀ l, some l ∈ lines → l.src.value < numVertices := by
  have hvalid (l : WrittenLine) :
      ¬ breaks (some numVertices) (some l) = true ↔ l.src.value < numVertices := by
    simp [breaks, validateVertex]
  rw [List.countP_eq_zero]
  constructor
  · exact fun h l hl => (hvalid l).mp (h _ hl)
  · intro h line hline
    cases line with
    | none => simp [breaks]
    | some l => exact (hvalid l).mpr (h l hline)

/-- A release build has no source that ends a batch. -/
theorem length_restrict (f : WorkloadFile) :
    (writtenBatches none (f.restrict (some numVertices)).last []
      (f.restrict (some numVertices)).lines).length = f.lines.countP Option.isNone + 1 := by
  have hnone : (f.restrict (some numVertices)).lines.countP (breaks none) = 0 := by
    rw [List.countP_eq_zero]
    rintro (- | l) - <;> simp [breaks, validateVertex]
  have hblank : Option.isNone ∘ Option.map (restrictLine (some numVertices)) = Option.isNone := by
    funext line
    exact Option.isNone_map
  rw [length_writtenBatches, hnone, WorkloadFile.restrict, List.countP_map, hblank]

theorem SameBatches.lt (h : SameBatches numVertices f) :
    ∀ l, some l ∈ f.lines → l.src.value < numVertices := by
  have hid (l : List (UInt64 × List UInt64)) : (id l).Perm l := .rfl
  obtain ⟨bound, hbound⟩ := h id id hid hid (fun _ _ => 0) fun _ _ => 0
  obtain ⟨events, events', hdebug, hrelease, hsame⟩ := hbound
    (bound + turns f + turns (f.restrict (some numVertices))) (by omega)
  rw [main_written _ _ _ (by omega)] at hdebug hrelease
  have hlen := hsame.length_eq
  rw [← Option.some.inj hdebug, ← Option.some.inj hrelease, length_batchEdges hid,
    length_batchEdges hid, length_restrict, length_writtenBatches] at hlen
  exact countP_breaks_eq_zero.mp (by omega)

theorem sameBatches_of_lt (h : ∀ l, some l ∈ f.lines → l.src.value < numVertices) :
    SameBatches numVertices f := by
  intro hashOrder hashOrder' hhash hhash' junk junk'
  refine ⟨turns f + turns (f.restrict (some numVertices)), fun fuel hfuel => ?_⟩
  refine ⟨_, _, main_written hashOrder (some numVertices) junk (by omega),
    main_written hashOrder' none junk' (by omega), ?_⟩
  have hrestrict := writtenBatches_restrict f.last (countP_breaks_eq_zero.mpr h) []
  rw [WorkloadFile.restrict, hrestrict]
  exact batchEdges_perm hhash hhash' _

/-- A source that is out of range breaks the batch off, at the end of a line: the builds agree on the
files that have none, and on no others. -/
theorem sameBatches_iff (numVertices : UInt64) (f : WorkloadFile) :
    SameBatches numVertices f ↔ ∀ l, some l ∈ f.lines → l.src.value < numVertices :=
  ⟨SameBatches.lt, sameBatches_of_lt⟩

theorem secondLine_separated :
    ∀ d ∈ [(oneBlank, Numeral.ofUInt64 2)], d.1.chars ≠ [] := by simp [oneBlank]

/-- The lines `7 0` and `1 2`. -/
def badFirstLine : WorkloadFile where
  lines := [some ⟨noBlanks, .ofUInt64 7, [(oneBlank, .ofUInt64 0)], by simp [oneBlank]⟩,
    some ⟨noBlanks, .ofUInt64 1, [(oneBlank, .ofUInt64 2)], secondLine_separated⟩]
  last := none

/-- With five vertices the algorithm has an extra run in front of the edge that is in range. -/
theorem sameBatches_badFirstLine : ¬ SameBatches 5 badFirstLine ∧
    badFirstLine.text = ['7', ' ', '0', '\n', '1', ' ', '2', '\n'] ∧
    (badFirstLine.restrict (some 5)).text = ['7', '\n', '1', ' ', '2', '\n'] ∧
    (∀ junk fuel, main id (some 5) junk (fuel + 3) badFirstLine.text =
      some [.algo, .ingest [(1, [2])], .postIngest, .algo]) ∧
    ∀ junk fuel, main id none junk (fuel + 3) (badFirstLine.restrict (some 5)).text =
      some [.ingest [(1, [2])], .postIngest, .algo] := by
  refine ⟨fun h => ?_, rfl, rfl, fun junk fuel => ?_, fun junk fuel => ?_⟩
  · exact absurd (h.lt _ List.mem_cons_self) (by decide)
  · exact main_written id (some 5) junk (Nat.le_add_left 3 fuel)
  · exact main_written id none junk (Nat.le_trans (by decide) (Nat.le_add_left 3 fuel))

end Validation

section Workload
open Workload (Line dstsText text_cons)
variable {numVertices : Option UInt64}

/-- A line of a workload, with a blank in front of each destination. -/
def ofInsert (src : UInt64) (dsts : List UInt64) : WrittenLine where
  lead := noBlanks
  src := .ofUInt64 src
  dsts := dsts.map fun dst => (oneBlank, .ofUInt64 dst)
  separated := by simp [oneBlank]

def ofLine : Line → Option WrittenLine
  | .execute => none
  | .insert src dsts => some (ofInsert src dsts)

theorem lineText_ofLine (line : Line) : lineText (ofLine line) = line.text := by
  cases line with
  | execute => rfl
  | insert src dsts =>
    have hdsts : numbersText (dsts.map fun dst => (oneBlank, .ofUInt64 dst)) = dstsText dsts := by
      rw [numbersText, List.flatMap_map]
      rfl
    show digits src ++ (numbersText (dsts.map fun dst => (oneBlank, .ofUInt64 dst)) ++ []) = _
    rw [hdsts, List.append_nil]
    rfl

/-- Every line of a workload has an end. -/
theorem text_ofLines (w : List Line) :
    WorkloadFile.text ⟨w.map ofLine, none⟩ = Workload.text w := by
  rw [WorkloadFile.text, List.map_map]
  induction w with
  | nil => rfl
  | cons line w ih =>
    rw [List.map_cons, List.cons_append, List.intercalate_cons_of_ne_nil (by simp), ih,
      text_cons, Function.comp_apply, lineText_ofLine, List.append_assoc]
    rfl

theorem kept_ofInsert {src : UInt64} (hvalid : validateVertex numVertices src = true)
    (dsts : List UInt64) : kept numVertices (ofInsert src dsts) =
      (dsts.filter (validateVertex numVertices)).map fun dst => (src, dst) := by
  have hedges : (ofInsert src dsts).edges = dsts.map fun dst => (src, dst) := by
    simp [WrittenLine.edges, ofInsert]
  rw [kept, hedges, List.filter_map]
  congr 2
  funext dst
  simp [edgeValid, hvalid]

/-- The batches of a workload are the ones of the text. -/
theorem writtenBatches_ofLines (numVertices : Option UInt64) (current : List Edge)
    (w : List Line) : ∃ b bs, lineBatches numVertices w = b :: bs ∧
      writtenBatches numVertices none current (w.map ofLine) = (current ++ b) :: bs := by
  induction w generalizing current with
  | nil => exact ⟨[], [], rfl, rfl⟩
  | cons line w ih =>
    obtain ⟨b₀, bs₀, hlines₀, hwritten₀⟩ := ih []
    have hwritten₀ : writtenBatches numVertices none [] (w.map ofLine) =
        lineBatches numVertices w := hwritten₀.trans hlines₀.symm
    cases line with
    | execute =>
      refine ⟨[], lineBatches numVertices w, rfl, ?_⟩
      rw [List.map_cons, ofLine, writtenBatches, hwritten₀, List.append_nil]
    | insert src dsts =>
      have hsrc : (ofInsert src dsts).src.value = src := Numeral.value_ofUInt64 src
      rw [List.map_cons, ofLine, writtenBatches, hsrc, lineBatches]
      by_cases hvalid : validateVertex numVertices src = true
      · obtain ⟨b, bs, hlines, hwritten⟩ := ih (current ++ kept numVertices (ofInsert src dsts))
        rw [if_neg (not_not.mpr hvalid), if_pos hvalid, hlines, hwritten, kept_ofInsert hvalid,
          List.append_assoc]
        exact ⟨_, _, rfl, rfl⟩
      · refine ⟨[], lineBatches numVertices w, by rw [if_pos hvalid], ?_⟩
        rw [if_neg hvalid, hwritten₀, List.append_nil]

/-- On workloads the benchmark does what its model without arbitrary values and endless loops does. -/
theorem main_workload (hashOrder : List (UInt64 × List UInt64) → List (UInt64 × List UInt64))
    (numVertices : Option UInt64) (junk : Junk) (w : List Line) : ∃ turns, ∀ fuel ≥ turns,
      main hashOrder numVertices junk fuel (Workload.text w) =
        EditScalability.main hashOrder numVertices (Workload.text w) := by
  refine ⟨turns ⟨w.map ofLine, none⟩, fun fuel hfuel => ?_⟩
  obtain ⟨b, bs, hlines, hwritten⟩ := writtenBatches_ofLines numVertices [] w
  rw [main_text, ← text_ofLines, main_written hashOrder numVertices junk hfuel, hwritten, hlines]
  rfl

end Workload

end Microbench.VertexValidation
