import GraphLogSketch.Scripts.VhostConvert

/-! One file counted by node and by virtual host: the two counts disagree when the file ends in a
record that has a source but no destination, since only the first looks at this source. -/
namespace GraphConvert
open ByteWords PositionalWrites TextStreams PartialMaps

/-- What the degrees of the nodes of a virtual host add up to. -/
def vhostDegrees (bdf : List UInt8) (vhosts h : ℕ) : ℕ :=
  ∑ v ∈ (Finset.range (bdf.length / 8)).filter (fun v => v % vhosts = h), (wordAt bdf (8 * v)).toNat

/-- Each line of the histogram is the sum of the degrees of its nodes, and the lines add up to the sum of
all degrees. -/
def CountsAgree (bdf : List UInt8) (vdl : List Char) (vhosts : ℕ) : Prop :=
  ∃ counts : List ℕ, vdl = numberLines counts ∧ counts.length = vhosts ∧
    (∀ h < vhosts, counts[h]? = some (vhostDegrees bdf vhosts h)) ∧
    counts.sum = ∑ v ∈ Finset.range (bdf.length / 8), (wordAt bdf (8 * v)).toNat

/-- The first word behind the records that the file has in full. -/
def brokenSource (file : List UInt8) : UInt64 := wordAt file (16 * (file.length / 16))

section Counts
variable {file : List UInt8} {es : List (UInt64 × UInt64)} {numNodes routines : UInt64}
  {reorder : List U64WriteRecord → List U64WriteRecord}

/-- Eight more bytes are the source of one more record. -/
theorem countP_begunEdges (file : List UInt8) (p : UInt64 → Prop) [DecidablePred p] :
    (begunEdges file).countP (fun e => p e.1) = (wholeEdges file).countP (fun e => p e.1) +
      if 8 ≤ file.length % 16 ∧ p (brokenSource file) then 1 else 0 := by
  by_cases h : 8 ≤ file.length % 16
  · have hlen : (file.length + 8) / 16 = file.length / 16 + 1 := by omega
    rw [begunEdges, hlen, List.range_succ, List.map_append, List.countP_append, ← wholeEdges]
    simp [List.countP_cons, h, edgeAt, brokenSource]
  · have hlen : (file.length + 8) / 16 = file.length / 16 := by omega
    rw [begunEdges, hlen, ← wholeEdges, if_neg fun hp => h hp.1, Nat.add_zero]

/-- A number of nodes for which the converter finishes: the offset of node `2 ^ 60` is negative. -/
theorem numNodes_le_of_finished (hperm : ∀ rs, (reorder rs).Perm rs)
    {srcFile dstFile bdf : List UInt8}
    (h : bel2bdfConvertOnto reorder routines srcFile numNodes dstFile = some bdf) :
    8 * numNodes.toNat ≤ 2 ^ 63 := by
  by_contra hlarge
  have hlt := numNodes.toNat_lt
  obtain ⟨nodes, hnodes, h⟩ := Option.bind_eq_some_iff.mp h
  obtain ⟨records, hrecords, hdrain⟩ := Option.bind_eq_some_iff.mp h
  have hmem : UInt64.ofNat (2 ^ 60) ∈ nodes :=
    mem_nodeIds (i := 0) hnodes (Or.inl rfl) (Nat.zero_le _) (by omega) (by decide)
  obtain ⟨record, hrecord, heq⟩ := exists_of_mapM hrecords hmem
  obtain ⟨count, -, hcount⟩ := Option.bind_eq_some_iff.mp heq
  have hpos := (drain_eq hdrain).1 record ((hperm records).mem_iff.mpr hrecord)
  rw [← Option.some.inj hcount] at hpos
  exact absurd (show (UInt64.ofNat (2 ^ 60) * sizeofu64).toNat < 2 ^ 63 from hpos) (by decide)

/-- The degrees that are written for a virtual host count the edges from its nodes. -/
theorem vhostDegrees_degreeWords (hes : es.length < 2 ^ 64) {n : ℕ} (hn : n ≤ 2 ^ 64)
    (vhosts h : ℕ) : vhostDegrees (encodeWords (degreeWords es n)) vhosts h =
      es.countP fun e => e.1.toNat < n ∧ e.1.toNat % vhosts = h := by
  unfold vhostDegrees
  rw [degreeWords_length, Nat.mul_div_cancel_left n (by decide : 0 < 8)]
  refine (Finset.sum_congr rfl fun v hv => ?_).trans (sum_degree_filter hn (· % vhosts = h) es)
  exact wordAt_degreeWords hes (Finset.mem_range.mp (Finset.mem_filter.mp hv).1)

theorem sum_degreeWords (hes : es.length < 2 ^ 64) {n : ℕ} (hn : n ≤ 2 ^ 64) :
    ∑ v ∈ Finset.range ((encodeWords (degreeWords es n)).length / 8),
      (wordAt (encodeWords (degreeWords es n)) (8 * v)).toNat =
        es.countP fun e => e.1.toNat < n := by
  have hsum := sum_degree_filter hn (fun _ => True) es
  simp only [Finset.filter_true, and_true] at hsum
  rw [degreeWords_length, Nat.mul_div_cancel_left n (by decide : 0 < 8), ← hsum]
  exact Finset.sum_congr rfl fun v hv => wordAt_degreeWords hes (Finset.mem_range.mp hv)

/-- The degrees count one edge more than the histogram when there is a node for the broken record. -/
theorem vhostDegrees_begunEdges (hbegun : (begunEdges file).length < 2 ^ 64)
    (hsources : ∀ e ∈ wholeEdges file, e.1 < numNodes) (vhosts h : ℕ) :
    vhostDegrees (encodeWords (degreeWords (begunEdges file) numNodes.toNat)) vhosts h =
      vhostCount (wholeEdges file) vhosts h +
        if 8 ≤ file.length % 16 ∧ brokenSource file < numNodes ∧
          (brokenSource file).toNat % vhosts = h then 1 else 0 := by
  rw [vhostDegrees_degreeWords hbegun numNodes.toNat_lt.le, countP_begunEdges file
    fun src => src.toNat < numNodes.toNat ∧ src.toNat % vhosts = h]
  congr 1
  apply List.countP_congr
  intro e he
  have hlt := UInt64.lt_iff_toNat_lt.mp (hsources e he)
  simp [hlt]

/-- The degrees add up to the number of sources below the number of nodes. -/
theorem sum_degreeWords_begunEdges (hbegun : (begunEdges file).length < 2 ^ 64)
    (hsources : ∀ e ∈ wholeEdges file, e.1 < numNodes) :
    ∑ v ∈ Finset.range
        ((encodeWords (degreeWords (begunEdges file) numNodes.toNat)).length / 8),
      (wordAt (encodeWords (degreeWords (begunEdges file) numNodes.toNat)) (8 * v)).toNat =
        (wholeEdges file).length +
          if 8 ≤ file.length % 16 ∧ brokenSource file < numNodes then 1 else 0 := by
  have hwhole : (wholeEdges file).countP (fun e => e.1.toNat < numNodes.toNat) =
      (wholeEdges file).length :=
    List.countP_eq_length.mpr fun e he =>
      decide_eq_true (UInt64.lt_iff_toNat_lt.mp (hsources e he))
  rw [sum_degreeWords hbegun numNodes.toNat_lt.le,
    countP_begunEdges file fun src => src.toNat < numNodes.toNat, hwhole]
  rfl

/-- Each edge is counted for one virtual host. -/
theorem sum_vhostCount (es : List (UInt64 × UInt64)) {vhosts : ℕ} (hvhosts : 0 < vhosts) :
    ((List.range vhosts).map (vhostCount es vhosts)).sum = es.length := by
  show ∑ h ∈ Finset.range vhosts, vhostCount es vhosts h = es.length
  induction es with
  | nil => exact Finset.sum_const_zero
  | cons e es ih =>
    have hone : ∑ h ∈ Finset.range vhosts, (if e.1.toNat % vhosts = h then 1 else 0) = 1 := by
      rw [Finset.sum_ite_eq, if_pos (Finset.mem_range.mpr (Nat.mod_lt _ hvhosts))]
    have hstep (h : ℕ) : vhostCount (e :: es) vhosts h =
        vhostCount es vhosts h + if e.1.toNat % vhosts = h then 1 else 0 := by
      rw [vhostCount, vhostCount, List.countP_cons]
      simp only [decide_eq_true_eq]
    simp only [hstep, Finset.sum_add_distrib, ih, hone, List.length_cons]

theorem vhostText_eq (es : List (UInt64 × UInt64)) (vhosts : ℕ) :
    vhostText es vhosts = numberLines ((List.range vhosts).map (vhostCount es vhosts)) := by
  rw [vhostText, numberLines, List.flatMap_map]

end Counts

/-- The two converters agree unless the file ends in eight or more bytes of an incomplete record whose
source is one of the nodes. -/
theorem countsAgree_iff (reorder : List U64WriteRecord → List U64WriteRecord)
    (hperm : ∀ rs, (reorder rs).Perm rs)
    (arrive : List (UInt64 × UInt64) → List (UInt64 × UInt64))
    (harrive : ∀ adds, (arrive adds).Perm adds) (inputFile : List UInt8)
    (hsize : inputFile.length < 2 ^ 63) (vhosts numNodes routines routines' : UInt64)
    (hvhosts : 1 ≤ vhosts) (hroutines : 1 ≤ routines) (hroutines' : 1 ≤ routines')
    (hsources : ∀ e ∈ wholeEdges inputFile, e.1 < numNodes) (bdf : List UInt8)
    (hbdf : bel2bdfConvert reorder routines inputFile numNodes = some bdf) (vdl : List Char)
    (hvdl : bel2vdlConvert arrive inputFile vhosts routines' = some vdl) :
    CountsAgree bdf vdl vhosts.toNat ↔
      ¬ (8 ≤ inputFile.length % 16 ∧ brokenSource inputFile < numNodes) := by
  have hpos : 0 < vhosts.toNat := UInt64.le_iff_toNat_le.mp hvhosts
  have hne {n : UInt64} (h : 1 ≤ n) : n ≠ 0 := by
    rintro rfl
    exact absurd h (by decide)
  have hbegun : (begunEdges inputFile).length < 2 ^ 64 := by
    rw [begunEdges, List.length_map, List.length_range]
    omega
  have hnodes := numNodes_le_of_finished hperm
    (show bel2bdfConvertOnto reorder routines inputFile numNodes [] = some bdf from hbdf)
  rw [bel2bdfConvert_eq hperm (UInt64.le_iff_toNat_le.mp hroutines) hnodes hsize] at hbdf
  rw [bel2vdlConvert_eq harrive hsize (hne hvhosts) (hne hroutines'), vhostText_eq] at hvdl
  obtain rfl := Option.some.inj hbdf
  obtain rfl := Option.some.inj hvdl
  have hline (h : ℕ) := vhostDegrees_begunEdges hbegun hsources vhosts.toNat h
  constructor
  · rintro ⟨counts, htext, -, hcounts, -⟩ ⟨hbroken, hlt⟩
    obtain rfl := numberLines_injective htext
    have hh := Nat.mod_lt (brokenSource inputFile).toNat hpos
    have hcount := hcounts _ hh
    rw [List.getElem?_map, List.getElem?_range hh, Option.map_some, Option.some.injEq, hline,
      if_pos ⟨hbroken, hlt, rfl⟩] at hcount
    omega
  · intro hgood
    refine ⟨_, rfl, by simp, fun h hh => ?_, ?_⟩
    · rw [List.getElem?_map, List.getElem?_range hh, Option.map_some, hline,
        if_neg fun hbad => hgood ⟨hbad.1, hbad.2.1⟩, Nat.add_zero]
    · rw [sum_vhostCount _ hpos, sum_degreeWords_begunEdges hbegun hsources, if_neg hgood,
        Nat.add_zero]

/-- Three words: the second converter counts one record, and the first one two. -/
theorem countsAgree_threeWords :
    bel2bdfConvert id 1 (encodeWords [0, 1, 0]) 2 = some (encodeWords [2, 0]) ∧
      bel2vdlConvert id (encodeWords [0, 1, 0]) 1 1 = some ['1', '\n'] ∧
      ¬ CountsAgree (encodeWords [2, 0]) ['1', '\n'] 1 := by
  refine ⟨by decide, by decide, ?_⟩
  rintro ⟨counts, htext, -, hcounts, -⟩
  have hone : numberLines [1] = numberLines counts := htext
  obtain rfl := numberLines_injective hone
  exact absurd (hcounts 0 Nat.one_pos) (by decide)

/-- A file that ends in less than a word. -/
theorem countsAgree_threeBytes :
    CountsAgree (encodeWords [1, 0]) ['1', '\n'] 1 :=
  (countsAgree_iff id (fun _ => .refl _) id (fun _ => .refl _) (encodeWords [0, 1] ++ [7, 7, 7])
    (by decide) 1 2 1 1 (by decide) (by decide) (by decide)
    (List.forall_mem_singleton.mpr (by decide)) _ (by decide) _ (by decide)).mpr (by decide)

end GraphConvert
