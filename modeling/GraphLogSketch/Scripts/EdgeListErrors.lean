import GraphLogSketch.Scripts.EdgeListConvert

/-! What the conversion of a text edge list makes of an error of the reader. The error that is compared
with `io.EOF` behind the loop is another variable, which nothing is ever assigned to. -/
namespace GraphConvert
open ByteWords PositionalWrites TextStreams

/-- Every record up to the end of the text was read, and its edge was written. -/
def AllWritten (reorder : List U64WriteRecord → List U64WriteRecord) (comma comment : Char)
    (inputFile : List Char) : Prop :=
  (⟨comma, comment, 2⟩ : Csv.Reader).ReadsAll inputFile ∧
    ∃ es numVerts, textEdges comma comment inputFile = some es ∧
      el2belConvert reorder comma comment inputFile = some (edgeList es, numVerts)

section Errors
variable {reorder : List U64WriteRecord → List U64WriteRecord} {es : List (UInt64 × UInt64)}

/-- The offset of edge number `2 ^ 59` is negative. -/
theorem edgeRecords_bound (h : ∀ r ∈ edgeRecords es 0, r.pos.toNat < 2 ^ 63) :
    16 * es.length ≤ 2 ^ 63 := by
  by_contra hlarge
  have hlt : 2 ^ 59 < es.length := by omega
  have hmem : (⟨UInt64.ofNat (2 ^ 59) * 2 * sizeofu64, es[2 ^ 59].1⟩ : U64WriteRecord) ∈
      edgeRecords es 0 := by
    have hedge : (es[2 ^ 59], 2 ^ 59) ∈ es.zipIdx 0 :=
      List.mk_mem_zipIdx_iff_getElem?.mpr (List.getElem?_eq_getElem hlt)
    exact List.mem_flatMap.mpr ⟨_, hedge, List.mem_cons_self⟩
  have hpos : (UInt64.ofNat (2 ^ 59) * 2 * sizeofu64).toNat = 2 ^ 63 := by decide
  exact absurd hpos (h _ hmem).ne

/-- The conversion ends normally when all fields in front of the error are numbers. -/
theorem el2belConvert_isSome (comma comment : Char) (inputFile : List Char)
    (hperm : ∀ rs, (reorder rs).Perm rs) :
    (el2belConvert reorder comma comment inputFile).isSome ↔
      ∃ es, textEdges comma comment inputFile = some es ∧ 16 * es.length ≤ 2 ^ 63 := by
  constructor
  · intro h
    obtain ⟨out, hout⟩ := Option.isSome_iff_exists.mp h
    have hqueue : queueEdges ((⟨comma, comment, 2⟩ : Csv.Reader).records inputFile) 0 0 = _ :=
      queueEdges_eq _ 0 0
    unfold el2belConvert el2belConvertOnto at hout
    dsimp only at hout
    rw [hqueue] at hout
    obtain ⟨⟨queue, numVerts⟩, hedges, hout⟩ := Option.bind_eq_some_iff.mp hout
    obtain ⟨es, hes, hqueue⟩ := Option.map_eq_some_iff.mp hedges
    obtain ⟨rfl, rfl⟩ := Prod.mk.inj hqueue
    obtain ⟨file, hdrain, -⟩ := Option.bind_eq_some_iff.mp hout
    refine ⟨es, hes, edgeRecords_bound fun r hr => ?_⟩
    exact (drain_eq hdrain).1 r ((hperm _).mem_iff.mpr hr)
  · rintro ⟨es, hes, hsize⟩
    rw [el2belConvert_eq hperm hes hsize]
    rfl

end Errors

/-- The conversion ends normally on exactly those texts that it has read and written up to their end, if
and only if the reader gets to the end, or the conversion fails for another reason in front of the
error: a field that is no number, or an offset that is too large. -/
theorem el2belConvert_fails_iff (reorder : List U64WriteRecord → List U64WriteRecord)
    (hperm : ∀ rs, (reorder rs).Perm rs) (comma comment : Char) (inputFile : List Char) :
    ((el2belConvert reorder comma comment inputFile).isSome ↔
        AllWritten reorder comma comment inputFile) ↔
      (⟨comma, comment, 2⟩ : Csv.Reader).ReadsAll inputFile ∨
        ∀ es, textEdges comma comment inputFile = some es → 2 ^ 63 < 16 * es.length := by
  have hends := el2belConvert_isSome comma comment inputFile hperm
  constructor
  · intro h
    by_cases hall : (⟨comma, comment, 2⟩ : Csv.Reader).ReadsAll inputFile
    · exact Or.inl hall
    · refine Or.inr fun es hes => ?_
      by_contra hsize
      exact hall (h.mp (hends.mpr ⟨es, hes, not_lt.mp hsize⟩)).1
  · rintro (hall | hfails)
    · refine ⟨fun h => ?_, fun ⟨_, es, numVerts, _, hout⟩ => by rw [hout]; rfl⟩
      obtain ⟨es, hes, hsize⟩ := hends.mp h
      exact ⟨hall, es, 1, hes, el2belConvert_eq hperm hes hsize⟩
    · refine ⟨fun h => ?_, fun ⟨_, es, numVerts, _, hout⟩ => by rw [hout]; rfl⟩
      obtain ⟨es, hes, hsize⟩ := hends.mp h
      exact absurd hsize (not_le.mpr (hfails es hes))

/-- A record with a wrong number of fields, and all records behind it, are left out silently. -/
theorem el2belConvert_truncates (reorder : List U64WriteRecord → List U64WriteRecord)
    (hperm : ∀ rs, (reorder rs).Perm rs) {comma comment : Char} (hdelims : Delims comma comment)
    (ls : List EdgeLine) (hls : ∀ l ∈ ls, l.Ok) (hsize : 16 * (edgesOf ls).length ≤ 2 ^ 63)
    (ids : List UInt64) (hne : ids ≠ []) (hids : ids.length ≠ 2) (rest : List Char) :
    let inputFile := edgesText comma comment ls ++
      ([comma].intercalate (ids.map digits) ++ '\n' :: rest)
    el2belConvert reorder comma comment inputFile = some (edgeList (edgesOf ls), 1) ∧
      ¬ (⟨comma, comment, 2⟩ : Csv.Reader).ReadsAll inputFile := by
  intro inputFile
  obtain ⟨id, ids, rfl⟩ := List.exists_cons_of_ne_nil hne
  have hbare : ∀ f ∈ (id :: ids).map digits, Csv.Bare comma f := by
    intro f hf
    obtain ⟨n, -, rfl⟩ := List.mem_map.mp hf
    exact hdelims.bare n
  obtain ⟨hrecords, hends⟩ := Csv.records_wrongCount hdelims.ok (EdgeLine.lines_ok hdelims hls)
    hbare (hdelims.first id ids) (by rwa [List.length_map]) rest
  refine ⟨el2belConvert_eq hperm ?_ hsize, hends⟩
  show List.mapM parseEdge (Csv.Reader.records _ inputFile) = _
  exact (congrArg _ hrecords).trans (mapM_parseEdge ls)

/-- The second record has one field only, and the third is lost with it. -/
theorem el2belConvert_oneField :
    let inputFile := ['1', ',', '2', '\n', '3', '\n', '4', ',', '5', '\n']
    el2belConvert id ',' '#' inputFile = some (edgeList [(1, 2)], 1) ∧
      ¬ ((el2belConvert id ',' '#' inputFile).isSome ↔ AllWritten id ',' '#' inputFile) := by
  intro inputFile
  obtain ⟨hout, hends⟩ := el2belConvert_truncates id (fun _ => .refl _) delims_default [.edge 1 2]
    (by simp [EdgeLine.Ok]) (by decide) [3] (by decide) (by decide) ['4', ',', '5', '\n']
  refine ⟨hout, fun h => hends (h.mp ?_).1⟩
  exact congrArg Option.isSome hout

theorem el2belConvert_fails_iff_comment :
    (el2belConvert List.reverse ',' '#' (edgesText ',' '#' [.comment ['e'], .edge 1 2])).isSome ↔
      AllWritten List.reverse ',' '#' (edgesText ',' '#' [.comment ['e'], .edge 1 2]) :=
  (el2belConvert_fails_iff List.reverse List.reverse_perm ',' '#' _).mpr
    (Or.inl (Csv.readsAll_linesText delims_default.ok
      (EdgeLine.lines_ok delims_default (by simp [EdgeLine.Ok]))))

end GraphConvert
