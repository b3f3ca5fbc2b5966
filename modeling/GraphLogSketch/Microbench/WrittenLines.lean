import GraphLogSketch.Microbench.WorkloadReaders

/-! The lines of a workload as they are written: a source and destinations with white space between
them, and perhaps more of it in front and behind. -/
namespace Microbench.WrittenLines
open TextStreams TextStreams.InputStream EditInput EditScalability
open Scripts.DivideIntoBatches (Edge)
open Scripts.CountBatched (countDst countDsts countLine)

structure WrittenLine where
  lead : Blanks
  src : Numeral
  dsts : List (Blanks × Numeral)
  separated : ∀ d ∈ dsts, d.1.chars ≠ []

namespace WrittenLine

/-- The line with white space behind it. -/
def text (l : WrittenLine) (trail : Blanks) : List Char :=
  l.lead.chars ++ (l.src.digits ++ (numbersText l.dsts ++ trail.chars))

def edges (l : WrittenLine) : List Edge := l.dsts.map fun d => (l.src.value, d.2.value)

/-- No vertex of the line is passed over. -/
def Valid (numVertices : Option UInt64) (l : WrittenLine) : Prop :=
  validateVertex numVertices l.src.value = true ∧
    ∀ d ∈ l.dsts, validateVertex numVertices d.2.value = true

/-- The values of `tmp`. White space at the end makes for one more, which nothing was stored in. -/
def tmps (l : WrittenLine) (trail : Blanks) (junk : ℕ → UInt64) : List UInt64 :=
  l.dsts.map (fun d => d.2.value) ++ if trail.chars = [] then [] else [junk (l.dsts.length + 1)]

end WrittenLine

section Lines
variable {numVertices : Option UInt64} {junk : Junk} {fuel : ℕ} {l : WrittenLine} {trail : Blanks}

theorem text_ne_nil : l.text trail ≠ [] := by
  simp [WrittenLine.text, l.src.ne_nil]

theorem extract_text : (ofText (l.text trail)).extract = (some l.src.value,
    ⟨numbersText l.dsts ++ trail.chars, (numbersText l.dsts ++ trail.chars).isEmpty, false⟩) :=
  l.src.extract l.lead (numbersText_head l.separated trail)

/-- The loop takes the destinations in turn. -/
theorem untilEof_tmps {α : Type*} {body : UInt64 → α → α} {junk : ℕ → UInt64}
    (hfuel : l.dsts.length < fuel) (a : α) :
    untilEof body (fun turn => junk (turn + 1)) fuel 0 (ofText (l.text trail)).extract.2 a =
      some ((l.tmps trail junk).foldl (fun a tmp => body tmp a) a) := by
  rw [extract_text, untilEof_numbers l.separated trail fuel 0 a hfuel, WrittenLine.tmps,
    List.foldl_append, List.foldl_map, Nat.zero_add]
  split_ifs <;> rfl

/-- The destinations that are in range are inserted in order. -/
theorem foldl_insertDst (src : UInt64) (tmps : List UInt64) (b : Insertions) :
    tmps.foldl (fun b tmp => insertDst numVertices src tmp b) b =
      ⟨b.insertions ++ (tmps.filter (validateVertex numVertices)).map fun tmp => (src, tmp),
        b.numEdges + UInt64.ofNat (tmps.filter (validateVertex numVertices)).length⟩ := by
  induction tmps generalizing b with
  | nil => simp
  | cons tmp tmps ih =>
    rw [List.foldl_cons, ih, insertDst]
    split_ifs with hvalid
    · rw [List.filter_cons_of_pos hvalid, List.map_cons, List.length_cons, UInt64.ofNat_add]
      simp [UInt64.add_assoc, UInt64.add_comm 1]
    · rw [List.filter_cons_of_neg hvalid]

theorem numEdges_foldl_countDst (tmps : List UInt64) (c : Scripts.CountBatched.Counts) :
    (tmps.foldl (fun c tmp => countDst tmp c) c).numEdges =
      c.numEdges + UInt64.ofNat tmps.length := by
  induction tmps generalizing c with
  | nil => simp
  | cons tmp tmps ih =>
    rw [List.foldl_cons, ih, List.length_cons, UInt64.ofNat_add, countDst]
    simp [UInt64.add_assoc, UInt64.add_comm 1]

theorem readLine_text (hfuel : l.dsts.length < fuel) (i : ℕ) (r : Reading) :
    readLine numVertices junk fuel i (l.text trail) r =
      if ¬ validateVertex numVertices l.src.value then some (false, r)
      else
        let dsts := (l.tmps trail (junk i)).filter (validateVertex numVertices)
        some (true, { r with current :=
          ⟨r.current.insertions ++ dsts.map fun tmp => (l.src.value, tmp),
            r.current.numEdges + UInt64.ofNat dsts.length⟩ }) := by
  have hsrc : (ofText (l.text trail)).extract.1 = some l.src.value :=
    congrArg Prod.fst extract_text
  unfold readLine EditInput.readDsts
  dsimp only
  rw [hsrc, Option.getD_some, untilEof_tmps hfuel, foldl_insertDst]
  rfl

theorem countLine_text (junk : Junk) (trail : Blanks) (hfuel : l.dsts.length < fuel) (i : ℕ)
    (c : Scripts.CountBatched.Counts) :
    ∃ c', countLine junk fuel i (l.text trail) c = some (true, c') ∧
      c'.numEdges = c.numEdges + UInt64.ofNat (l.tmps trail (junk i)).length := by
  unfold countLine countDsts
  dsimp only
  rw [untilEof_tmps hfuel]
  exact ⟨_, rfl, numEdges_foldl_countDst _ _⟩

theorem tmps_of_trail (htrail : trail.chars = []) (junk : ℕ → UInt64) :
    l.tmps trail junk = l.dsts.map fun d => d.2.value := by
  rw [WrittenLine.tmps, if_pos htrail, List.append_nil]

theorem length_tmps (junk : ℕ → UInt64) :
    (l.tmps trail junk).length = l.dsts.length + if trail.chars = [] then 0 else 1 := by
  rw [WrittenLine.tmps, List.length_append, List.length_map]
  split_ifs <;> rfl

end Lines

section Recorded
variable {l : WrittenLine} {trail : Blanks}

/-- The benchmark records the edges of the line and no others, in order, whatever the variables hold,
and both programs count them. A debug build has to, too, when no vertex is out of range. -/
def RecordsLine (l : WrittenLine) (trail : Blanks) : Prop :=
  ∀ numVertices, l.Valid numVertices → ∀ (junk : Junk) (i : ℕ) (r : Reading)
    (c : Scripts.CountBatched.Counts), ∃ turns, ∀ fuel ≥ turns,
      readLine numVertices junk fuel i (l.text trail) r = some (true, { r with current :=
        ⟨r.current.insertions ++ l.edges,
          r.current.numEdges + UInt64.ofNat l.dsts.length⟩ }) ∧
      ∃ c', countLine junk fuel i (l.text trail) c = some (true, c') ∧
        c'.numEdges = c.numEdges + UInt64.ofNat l.dsts.length

theorem RecordsLine.trail_eq_nil (h : RecordsLine l trail) : trail.chars = [] := by
  by_contra htrail
  obtain ⟨turns, hturns⟩ := h none ⟨rfl, fun _ _ => rfl⟩ (fun _ _ => 0) 0 ⟨[], .empty⟩ ⟨0, 0⟩
  obtain ⟨hread, -⟩ := hturns (max turns (l.dsts.length + 1)) (le_max_left _ _)
  rw [readLine_text (lt_of_lt_of_le (Nat.lt_succ_self _) (le_max_right _ _)),
    if_neg (by simp [validateVertex])] at hread
  have hedges := congrArg (fun r => r.2.current.insertions.length) (Option.some.inj hread)
  have hall : (l.tmps trail fun _ => 0).filter (validateVertex none) = l.tmps trail fun _ => 0 :=
    List.filter_eq_self.mpr fun _ _ => rfl
  dsimp only at hedges
  rw [hall, List.length_append, List.length_append, List.length_map, length_tmps, if_neg htrail,
    WrittenLine.edges, List.length_map] at hedges
  omega

theorem recordsLine_of_trail (htrail : trail.chars = []) : RecordsLine l trail := by
  rintro numVertices ⟨hsrc, hdsts⟩ junk i r c
  have htmps := tmps_of_trail (l := l) htrail (junk i)
  have hall : (l.dsts.map fun d => d.2.value).filter (validateVertex numVertices) =
      l.dsts.map fun d => d.2.value := by
    rw [List.filter_eq_self, List.forall_mem_map]
    exact hdsts
  refine ⟨l.dsts.length + 1, fun fuel hfuel => ⟨?_, ?_⟩⟩
  · rw [readLine_text hfuel, if_neg (not_not.mpr hsrc), htmps, hall]
    dsimp only
    rw [List.map_map, List.length_map]
    rfl
  · obtain ⟨c', hline, hcount⟩ := countLine_text junk trail hfuel i c
    rw [htmps, List.length_map] at hcount
    exact ⟨c', hline, hcount⟩

/-- A line is recorded as it is written just when there is no white space at its end. -/
theorem recordsLine_iff (l : WrittenLine) (trail : Blanks) :
    RecordsLine l trail ↔ trail.chars = [] := ⟨RecordsLine.trail_eq_nil, recordsLine_of_trail⟩

def oneBlank : Blanks := ⟨[' '], List.forall_mem_singleton.mpr (by decide), by decide⟩

/-- The line `1 2`. -/
def oneEdge : WrittenLine where
  lead := ⟨[], by simp, by simp⟩
  src := .ofUInt64 1
  dsts := [(oneBlank, .ofUInt64 2)]
  separated := by simp [oneBlank]

/-- With a blank behind it the line has a second edge, to an arbitrary vertex. -/
theorem recordsLine_blank : ¬ RecordsLine oneEdge oneBlank ∧
    oneEdge.text oneBlank = ['1', ' ', '2', ' '] ∧
    ∀ (junk : Junk) (fuel : ℕ), readLine none junk (fuel + 2) 0 ['1', ' ', '2', ' '] ⟨[], .empty⟩ =
      some (true, ⟨[], ⟨[(1, 2), (1, junk 0 2)], 2⟩⟩) := by
  refine ⟨fun h => absurd h.trail_eq_nil (by decide), rfl, fun junk fuel => ?_⟩
  have hfuel : oneEdge.dsts.length < fuel + 2 := by simp [oneEdge]
  show readLine none junk (fuel + 2) 0 (oneEdge.text oneBlank) _ = _
  exact readLine_text hfuel 0 _

end Recorded

end Microbench.WrittenLines
