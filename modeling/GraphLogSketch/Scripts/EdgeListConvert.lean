import GraphLogSketch.Library.Csv
import GraphLogSketch.Library.TextStreams
import GraphLogSketch.Scripts.GraphConvert

/-! Text edge lists turned into binary ones, and these into lists of degrees. -/
namespace GraphConvert
open ByteWords PositionalWrites TextStreams

/-- `strconv.ParseUint` for 64 bits in base 10. -/
def parseUint (s : List Char) : Option UInt64 :=
  let n := Nat.ofDigitChars 10 s 0
  if s ≠ [] ∧ s.all Char.isDigit ∧ n < 2 ^ 64 then some (UInt64.ofNat n) else none

protected def max (a b : UInt64) : UInt64 := if a ≤ b then a else b

/-- The loop over the records of the edge list: what is queued, and the largest vertex. -/
def queueEdges : List (List (List Char)) → UInt64 → UInt64 →
    Option (List U64WriteRecord × UInt64)
  | [], _, numVerts => some ([], numVerts)
  | record :: records, index, numVerts => do
    let src ← parseUint (record.getD 0 [])
    let dst ← parseUint (record.getD 1 [])
    let numVerts := GraphConvert.max (GraphConvert.max src dst) numVerts
    let (queue, numVerts) ← queueEdges records (index + 1) numVerts
    return (⟨index * 2 * sizeofu64, src⟩ :: ⟨index * 2 * sizeofu64 + sizeofu64, dst⟩ :: queue, numVerts)

/-- What the converter makes of the output file, and the number of vertices that it prints. The loop ends
at the first record that cannot be read. -/
def el2belConvertOnto (reorder : List U64WriteRecord → List U64WriteRecord) (comma comment : Char)
    (inputFile : List Char) (outputFile : List UInt8) : Option (List UInt8 × UInt64) := do
  let reader : Csv.Reader := ⟨comma, comment, 2⟩
  let (queue, numVerts) ← queueEdges (reader.records inputFile) 0 0
  let outputFile ← drain (reorder queue) outputFile
  return (outputFile, numVerts + 1)

/-- The converter on an initially empty output file. -/
def el2belConvert (reorder : List U64WriteRecord → List U64WriteRecord) (comma comment : Char)
    (inputFile : List Char) : Option (List UInt8 × UInt64) :=
  el2belConvertOnto reorder comma comment inputFile []

/-- How often a node is a source; `sz` is a multiple of the size of a word. -/
def calculateDegrees (nodeID sz : UInt64) (srcFile : List UInt8) : Option U64WriteRecord := do
  let count ← (List.range ((sz.toNat + 15) / 16)).foldlM (fun (count : UInt64) i => do
    let src ← readU64At srcFile (UInt64.ofNat (16 * i))
    return if src = nodeID then count + 1 else count) 0
  return ⟨nodeID * sizeofu64, count⟩

/-- The nodes from `i` up to the end of its round, or the last one. -/
def roundIds (numNodes routines i : UInt64) : List UInt64 :=
  (List.range' i.toNat (min (i + routines).toNat numNodes.toNat - i.toNat)).map UInt64.ofNat

/-- The nodes in all rounds from `i` on; where an index wraps the loop may not end. -/
def nodeIds (numNodes routines : UInt64) : ℕ → UInt64 → Option (List UInt64)
  | 0, _ => none
  | fuel + 1, i =>
    if i < numNodes then (nodeIds numNodes routines fuel (i + routines)).map (roundIds numNodes routines i ++ ·)
    else some []

/-- What the converter makes of the output file; the goroutines write in any order. -/
def bel2bdfConvertOnto (reorder : List U64WriteRecord → List U64WriteRecord) (routines : UInt64)
    (srcFile : List UInt8) (numNodes : UInt64) (dstFile : List UInt8) : Option (List UInt8) := do
  let sz := UInt64.ofNat srcFile.length
  let sz := sz - sz % sizeofu64
  let nodes ← nodeIds numNodes routines (numNodes.toNat + 1) 0
  let records ← nodes.mapM fun nodeID => calculateDegrees nodeID sz srcFile
  drain (reorder records) dstFile

def bel2bdfConvert (reorder : List U64WriteRecord → List U64WriteRecord) (routines : UInt64)
    (srcFile : List UInt8) (numNodes : UInt64) : Option (List UInt8) :=
  bel2bdfConvertOnto reorder routines srcFile numNodes []

/-- The edge of a record. -/
def parseEdge (record : List (List Char)) : Option (UInt64 × UInt64) := do
  let src ← parseUint (record.getD 0 [])
  let dst ← parseUint (record.getD 1 [])
  return (src, dst)

/-- The edges of a text, or `none` when a field is no number. -/
def textEdges (comma comment : Char) (inputFile : List Char) : Option (List (UInt64 × UInt64)) :=
  ((⟨comma, comment, 2⟩ : Csv.Reader).records inputFile).mapM parseEdge

def edgeWords (es : List (UInt64 × UInt64)) : List UInt64 := es.flatMap fun e => [e.1, e.2]

/-- The records that are queued for edges from a number on. -/
def edgeRecords (es : List (UInt64 × UInt64)) (i : ℕ) : List U64WriteRecord :=
  (es.zipIdx i).flatMap fun p =>
    [⟨UInt64.ofNat p.2 * 2 * sizeofu64, p.1.1⟩, ⟨UInt64.ofNat p.2 * 2 * sizeofu64 + sizeofu64, p.1.2⟩]

def lastVertex (es : List (UInt64 × UInt64)) (numVerts : UInt64) : UInt64 :=
  es.foldl (fun n e => GraphConvert.max (GraphConvert.max e.1 e.2) n) numVerts

theorem queueEdges_eq (records : List (List (List Char))) (i : ℕ) (numVerts : UInt64) :
    queueEdges records (UInt64.ofNat i) numVerts = (records.mapM parseEdge).map fun es =>
      (edgeRecords es i, lastVertex es numVerts) := by
  induction records generalizing i numVerts with
  | nil => rfl
  | cons record records ih =>
    have hnext : UInt64.ofNat i + 1 = UInt64.ofNat (i + 1) := by simp
    rw [queueEdges, List.mapM_cons, parseEdge]
    rcases parseUint (record.getD 0 []) with - | src
    · rfl
    rcases parseUint (record.getD 1 []) with - | dst
    · rfl
    simp only [Option.bind_eq_bind, Option.bind_some, hnext, ih, Option.pure_def]
    cases records.mapM parseEdge with
    | none => rfl
    | some es => rfl

/-- `max` returns the smaller number. -/
theorem max_zero (a : UInt64) : GraphConvert.max a 0 = 0 := by
  unfold GraphConvert.max
  split_ifs with h
  · exact UInt64.le_antisymm h (UInt64.le_iff_toNat_le.mpr (Nat.zero_le _))
  · rfl

theorem lastVertex_zero (es : List (UInt64 × UInt64)) : lastVertex es 0 = 0 := by
  induction es with
  | nil => rfl
  | cons e es ih =>
    show lastVertex es (GraphConvert.max (GraphConvert.max e.1 e.2) 0) = 0
    rw [max_zero, ih]

section Written
variable {es : List (UInt64 × UInt64)} {reorder : List U64WriteRecord → List U64WriteRecord}
  {order : List U64WriteRecord} {comma comment : Char} {inputFile : List Char}

/-- Nothing wraps in the positions of the edges. -/
theorem edgeRecords_write (es : List (UInt64 × UInt64)) (i : ℕ) (hsize : 16 * (i + es.length) ≤ 2 ^ 63) :
    (edgeRecords es i).map U64WriteRecord.write = wordWrites (edgeWords es) (2 * i) ∧
      ∀ r ∈ edgeRecords es i, r.pos.toNat < 2 ^ 63 := by
  induction es generalizing i with
  | nil => exact ⟨rfl, fun r hr => absurd hr List.not_mem_nil⟩
  | cons e es ih =>
    rw [List.length_cons] at hsize
    obtain ⟨hwrites, hpos⟩ := ih (i + 1) (by omega)
    have hi : (UInt64.ofNat i).toNat = i := UInt64.toNat_ofNat_of_lt' (by show i < 2 ^ 64; omega)
    have hsrc : (UInt64.ofNat i * 2 * sizeofu64).toNat = 8 * (2 * i) := by
      rw [UInt64.toNat_mul, UInt64.toNat_mul, hi]
      show i * 2 % 2 ^ 64 * 8 % 2 ^ 64 = _
      omega
    have hdst : (UInt64.ofNat i * 2 * sizeofu64 + sizeofu64).toNat = 8 * (2 * i + 1) := by
      rw [UInt64.toNat_add, hsrc]
      show (8 * (2 * i) + 8) % 2 ^ 64 = _
      omega
    have hrecords : edgeRecords (e :: es) i = ⟨UInt64.ofNat i * 2 * sizeofu64, e.1⟩ ::
        ⟨UInt64.ofNat i * 2 * sizeofu64 + sizeofu64, e.2⟩ :: edgeRecords es (i + 1) := rfl
    rw [hrecords]
    constructor
    · rw [List.map_cons, List.map_cons, hwrites, U64WriteRecord.write, U64WriteRecord.write, hsrc,
        hdst]
      rfl
    · intro r hr
      simp only [List.mem_cons] at hr
      rcases hr with rfl | rfl | hr
      · show (UInt64.ofNat i * 2 * sizeofu64).toNat < _
        omega
      · show (UInt64.ofNat i * 2 * sizeofu64 + sizeofu64).toNat < _
        omega
      · exact hpos r hr

/-- Writers whose positions are no negative offsets do not panic. -/
theorem drain_some (file : List UInt8) (h : ∀ r ∈ order, r.pos.toNat < 2 ^ 63) :
    drain order file = some (apply (order.map U64WriteRecord.write) file) := by
  induction order generalizing file with
  | nil => rfl
  | cons r order ih =>
    rw [drain, List.foldlM_cons, writeU64At, if_pos (h r List.mem_cons_self)]
    exact ih _ fun r hr => h r (List.mem_cons_of_mem _ hr)

/-- The converter writes the edges in their order over what the file has, and reports one vertex. -/
theorem el2belConvertOnto_eq (hperm : ∀ rs, (reorder rs).Perm rs)
    (hes : textEdges comma comment inputFile = some es) (hsize : 16 * es.length ≤ 2 ^ 63)
    (outputFile : List UInt8) :
    el2belConvertOnto reorder comma comment inputFile outputFile =
      some (overlay (edgeList es) outputFile, 1) := by
  have hqueue : queueEdges ((⟨comma, comment, 2⟩ : Csv.Reader).records inputFile) 0 0 = _ :=
    queueEdges_eq _ 0 0
  obtain ⟨hwrites, hpos⟩ := edgeRecords_write es 0 (by rwa [Nat.zero_add])
  have hdrain := drain_some outputFile fun r hr =>
    hpos r ((hperm (edgeRecords es 0)).mem_iff.mp hr)
  have hfile : apply ((reorder (edgeRecords es 0)).map U64WriteRecord.write) outputFile =
      overlay (edgeList es) outputFile :=
    apply_wordWrites_overlay (hwrites ▸ (hperm _).map _) outputFile
  rw [hfile] at hdrain
  unfold textEdges at hes
  rw [hes, Option.map_some, lastVertex_zero] at hqueue
  unfold el2belConvertOnto
  dsimp only
  rw [hqueue]
  simp only [Option.bind_eq_bind, Option.bind_some, hdrain]
  rfl

theorem el2belConvert_eq (hperm : ∀ rs, (reorder rs).Perm rs)
    (hes : textEdges comma comment inputFile = some es) (hsize : 16 * es.length ≤ 2 ^ 63) :
    el2belConvert reorder comma comment inputFile = some (edgeList es, 1) := by
  have hrun := el2belConvertOnto_eq hperm hes hsize []
  rw [overlay_nil] at hrun
  exact hrun

end Written

section Text
variable {comma comment : Char}

/-- A line of a text edge list. -/
inductive EdgeLine where
  | edge (src dst : UInt64)
  | comment (body : List Char)
  | blank

def EdgeLine.line : EdgeLine → Csv.Line
  | .edge src dst => .record [digits src, digits dst]
  | .comment body => .comment body
  | .blank => .blank

def EdgeLine.pair : EdgeLine → Option (UInt64 × UInt64)
  | .edge src dst => some (src, dst)
  | .comment _ => none
  | .blank => none

def edgesOf (ls : List EdgeLine) : List (UInt64 × UInt64) := ls.filterMap EdgeLine.pair

/-- The text of the lines, with characters between numbers and in front of comments. -/
def edgesText (comma comment : Char) (ls : List EdgeLine) : List Char :=
  Csv.linesText ⟨comma, comment, 2⟩ (ls.map EdgeLine.line)

/-- The characters can be told from each other and from numbers. -/
structure Delims (comma comment : Char) : Prop where
  ok : (⟨comma, comment, 2⟩ : Csv.Reader).Ok
  comma_digit : comma.isDigit = false
  comment_digit : comment.isDigit = false
  comment_ne : comment ≠ Char.ofNat 0

/-- A comment goes up to the end of its line. -/
def EdgeLine.Ok : EdgeLine → Prop
  | .comment body => '\n' ∉ body ∧ '\r' ∉ body
  | _ => True

theorem parseUint_digits (n : UInt64) : parseUint (digits n) = some n := by
  have hall : (digits n).all Char.isDigit = true :=
    List.all_eq_true.mpr fun c hc => isDigit_of_mem_digits hc
  unfold parseUint
  rw [ofDigitChars_digits, if_pos ⟨digits_ne_nil n, hall, n.toNat_lt⟩, UInt64.ofNat_toNat]

theorem Delims.bare (h : Delims comma comment) (n : UInt64) : Csv.Bare comma (digits n) := by
  intro c hc
  have hdigit := isDigit_of_mem_digits hc
  constructor
  · rintro rfl
    exact absurd hdigit (by simp [h.comma_digit])
  · intro hmem
    simp only [List.mem_cons, List.not_mem_nil, or_false] at hmem
    rcases hmem with rfl | rfl | rfl
    all_goals exact absurd hdigit (by decide)

/-- A line of numbers starts with a digit. -/
theorem Delims.first (h : Delims comma comment) (id : UInt64) (ids : List UInt64) :
    ∃ c ∈ ([comma].intercalate ((id :: ids).map digits)).head?, c ≠ comment ∧ c ≠ '\n' := by
  obtain ⟨c, cs, hcs⟩ := List.exists_cons_of_ne_nil (digits_ne_nil id)
  have hdigit := isDigit_of_mem_digits (n := id) (c := c) (by rw [hcs]; exact List.mem_cons_self)
  refine ⟨c, ?_, ?_, ?_⟩
  · cases ids with
    | nil => simp [List.intercalate_singleton, hcs]
    | cons id' ids =>
      rw [List.map_cons, List.map_cons, List.intercalate_cons_cons, hcs]
      rfl
  · rintro rfl
    exact absurd hdigit (by simp [h.comment_digit])
  · rintro rfl
    exact absurd hdigit (by decide)

theorem EdgeLine.line_ok (h : Delims comma comment) {l : EdgeLine} (hl : l.Ok) :
    l.line.Ok ⟨comma, comment, 2⟩ := by
  cases l with
  | edge src dst =>
    refine ⟨rfl, ?_, h.first src [dst]⟩
    intro f hf
    simp only [List.mem_cons, List.not_mem_nil, or_false] at hf
    rcases hf with rfl | rfl
    · exact h.bare src
    · exact h.bare dst
  | comment body => exact ⟨h.comment_ne, hl⟩
  | blank => trivial

theorem EdgeLine.lines_ok (h : Delims comma comment) {ls : List EdgeLine} (hls : ∀ l ∈ ls, l.Ok) :
    ∀ l ∈ ls.map EdgeLine.line, l.Ok ⟨comma, comment, 2⟩ := by
  intro _ hl
  obtain ⟨l, hmem, rfl⟩ := List.mem_map.mp hl
  exact EdgeLine.line_ok h (hls l hmem)

/-- The edges of the records of such lines. -/
theorem mapM_parseEdge (ls : List EdgeLine) :
    ((ls.map EdgeLine.line).filterMap Csv.Line.fields).mapM parseEdge = some (edgesOf ls) := by
  induction ls with
  | nil => rfl
  | cons l ls ih =>
    cases l with
    | edge src dst =>
      have hparse : parseEdge [digits src, digits dst] = some (src, dst) := by
        simp [parseEdge, parseUint_digits]
      show List.mapM parseEdge ([digits src, digits dst] ::
        (ls.map EdgeLine.line).filterMap Csv.Line.fields) = _
      rw [List.mapM_cons, hparse, ih]
      rfl
    | comment body => exact ih
    | blank => exact ih

/-- The converter reads the edges of such a text. -/
theorem textEdges_edgesText (h : Delims comma comment) (ls : List EdgeLine)
    (hls : ∀ l ∈ ls, l.Ok) :
    textEdges comma comment (edgesText comma comment ls) = some (edgesOf ls) := by
  unfold textEdges edgesText
  rw [Csv.records_linesText h.ok (ls.map EdgeLine.line) (EdgeLine.lines_ok h hls), mapM_parseEdge]

end Text

section Degrees
variable {file : List UInt8} {es : List (UInt64 × UInt64)} {numNodes routines : UInt64}

theorem edgeWords_getElem? (es : List (UInt64 × UInt64)) (k : ℕ) :
    (edgeWords es)[2 * k]? = es[k]?.map Prod.fst ∧
      (edgeWords es)[2 * k + 1]? = es[k]?.map Prod.snd := by
  induction es generalizing k with
  | nil => exact ⟨rfl, rfl⟩
  | cons e es ih =>
    cases k with
    | zero => exact ⟨rfl, rfl⟩
    | succ k => exact ih k

/-- The words of an edge in the file. -/
theorem wordAt_edgeList {k : ℕ} {e : UInt64 × UInt64} (h : es[k]? = some e) :
    wordAt (edgeList es) (16 * k) = e.1 ∧ wordAt (edgeList es) (16 * k + 8) = e.2 := by
  obtain ⟨hsrc, hdst⟩ := edgeWords_getElem? es k
  rw [h] at hsrc hdst
  have hfirst := wordAt_encodeWords hsrc
  have hsecond := wordAt_encodeWords hdst
  rw [show 8 * (2 * k) = 16 * k by omega] at hfirst
  rw [show 8 * (2 * k + 1) = 16 * k + 8 by omega] at hsecond
  exact ⟨hfirst, hsecond⟩

/-- The edge that starts at record `i` of a file; bytes that are missing read as zero. -/
def edgeAt (file : List UInt8) (i : ℕ) : UInt64 × UInt64 :=
  (wordAt file (16 * i), wordAt file (16 * i + 8))

/-- The edges of the records that the file has in full. -/
def wholeEdges (file : List UInt8) : List (UInt64 × UInt64) :=
  (List.range (file.length / 16)).map (edgeAt file)

/-- Those of the records that the file has a source of: the last one may lack its destination. -/
def begunEdges (file : List UInt8) : List (UInt64 × UInt64) :=
  (List.range ((file.length + 8) / 16)).map (edgeAt file)

theorem map_edgeAt_edgeList (es : List (UInt64 × UInt64)) :
    (List.range es.length).map (edgeAt (edgeList es)) = es := by
  apply List.ext_getElem
  · simp
  · intro i _ hi
    obtain ⟨hsrc, hdst⟩ := wordAt_edgeList (List.getElem?_eq_getElem hi)
    simp [edgeAt, hsrc, hdst]

@[simp] theorem wholeEdges_edgeList (es : List (UInt64 × UInt64)) :
    wholeEdges (edgeList es) = es := by
  have hlen : 16 * es.length / 16 = es.length := by omega
  rw [wholeEdges, edgeList_length, hlen, map_edgeAt_edgeList]

@[simp] theorem begunEdges_edgeList (es : List (UInt64 × UInt64)) :
    begunEdges (edgeList es) = es := by
  have hlen : (16 * es.length + 8) / 16 = es.length := by omega
  rw [begunEdges, edgeList_length, hlen, map_edgeAt_edgeList]

theorem readU64At_edgeAt (hsize : file.length < 2 ^ 63) {i : ℕ} (hi : 16 * i + 8 ≤ file.length) :
    readU64At file (UInt64.ofNat i * 2 * sizeofu64) = some (edgeAt file i).1 := by
  have hoff : (UInt64.ofNat i * 2 * sizeofu64).toNat = 16 * i := by
    rw [UInt64.toNat_mul, UInt64.toNat_mul, UInt64.toNat_ofNat_of_lt' (by show i < 2 ^ 64; omega)]
    show i * 2 % 2 ^ 64 * 8 % 2 ^ 64 = _
    omega
  rw [readU64At, hoff, if_pos ⟨by omega, hi⟩, edgeAt]

theorem readU64At_source (hsize : 16 * es.length < 2 ^ 63) {i : ℕ} (hi : i < es.length) :
    readU64At (edgeList es) (UInt64.ofNat i * 2 * sizeofu64) = some es[i].1 := by
  have hlen := edgeList_length es
  rw [readU64At_edgeAt (by omega) (by omega), edgeAt,
    (wordAt_edgeList (List.getElem?_eq_getElem hi)).1]

/-- The number of edges from a node. -/
def degree (es : List (UInt64 × UInt64)) (v : UInt64) : ℕ := es.countP fun e => e.1 = v

/-- The loop counts the edges of all records that have a source. -/
theorem calculateDegrees_eq (hsize : file.length < 2 ^ 63) (v : UInt64) :
    calculateDegrees v (UInt64.ofNat file.length - UInt64.ofNat file.length % sizeofu64) file =
      some ⟨v * sizeofu64, UInt64.ofNat (degree (begunEdges file) v)⟩ := by
  have hturns : ((UInt64.ofNat file.length - UInt64.ofNat file.length % sizeofu64).toNat + 15) / 16 =
      (file.length + 8) / 16 := by
    rw [(wholeSize_toNat hsize).1]
    omega
  have hloop (m : ℕ) (hm : m ≤ (file.length + 8) / 16) :
      (List.range m).foldlM (fun (count : UInt64) i => do
        let src ← readU64At file (UInt64.ofNat (16 * i))
        return if src = v then count + 1 else count) 0 =
      some (UInt64.ofNat (degree ((List.range m).map (edgeAt file)) v)) := by
    induction m with
    | zero => rfl
    | succ m ih =>
      have hoff : (UInt64.ofNat (16 * m)).toNat = 16 * m :=
        UInt64.toNat_ofNat_of_lt' (by show 16 * m < 2 ^ 64; omega)
      have hread : readU64At file (UInt64.ofNat (16 * m)) = some (edgeAt file m).1 := by
        rw [readU64At, hoff, if_pos ⟨by omega, by omega⟩, edgeAt]
      rw [List.range_succ, List.foldlM_append, ih (by omega)]
      simp only [List.foldlM_cons, List.foldlM_nil, Option.bind_eq_bind, Option.bind_some, hread]
      have hnext : degree ((List.range m ++ [m]).map (edgeAt file)) v =
          degree ((List.range m).map (edgeAt file)) v + if (edgeAt file m).1 = v then 1 else 0 := by
        rw [degree, degree, List.map_append, List.countP_append]
        simp [List.countP_cons]
      rw [hnext]
      split_ifs
      · simp
      · rfl
  unfold calculateDegrees
  rw [hturns, hloop _ le_rfl]
  rfl

theorem roundIds_append {i : ℕ} (hi : i < numNodes.toNat)
    (hwrap : i + routines.toNat < 2 ^ 64) :
    roundIds numNodes routines (UInt64.ofNat i) ++
        (List.range' (i + routines.toNat) (numNodes.toNat - (i + routines.toNat))).map UInt64.ofNat =
      (List.range' i (numNodes.toNat - i)).map UInt64.ofNat := by
  have hN := numNodes.toNat_lt
  have hsum : (UInt64.ofNat i + routines).toNat = i + routines.toNat := by
    rw [UInt64.toNat_add, UInt64.toNat_ofNat_of_lt' (hi.trans hN), Nat.mod_eq_of_lt hwrap]
  unfold roundIds
  rw [hsum, UInt64.toNat_ofNat_of_lt' (hi.trans hN), ← List.map_append]
  congr 1
  rcases le_total (i + routines.toNat) numNodes.toNat with hle | hle
  · have hjoin := List.range'_append_1 (s := i) (m := routines.toNat)
      (n := numNodes.toNat - (i + routines.toNat))
    rw [min_eq_left hle, Nat.add_sub_cancel_left, hjoin]
    congr 1
    omega
  · rw [min_eq_right hle, Nat.sub_eq_zero_of_le hle, List.range'_zero, List.append_nil]

/-- The rounds have every node once. -/
theorem nodeIds_eq (hroutines : 0 < routines.toNat) (hnodes : numNodes.toNat ≤ 2 ^ 63)
    (fuel i : ℕ) (hi : i < 2 ^ 64) (hstart : i = 0 ∨ routines.toNat ≤ i)
    (hfuel : numNodes.toNat - i < fuel) :
    nodeIds numNodes routines fuel (UInt64.ofNat i) =
      some ((List.range' i (numNodes.toNat - i)).map UInt64.ofNat) := by
  induction fuel generalizing i with
  | zero => omega
  | succ fuel ih =>
    have hlt : UInt64.ofNat i < numNodes ↔ i < numNodes.toNat := by
      rw [UInt64.lt_iff_toNat_lt, UInt64.toNat_ofNat_of_lt' hi]
    rw [nodeIds]
    split_ifs with h
    · have h := hlt.mp h
      -- only a round after the first one could wrap, and it starts behind a whole round
      have hwrap : i + routines.toNat < 2 ^ 64 := by
        have hbound := routines.toNat_lt
        omega
      have hsum : UInt64.ofNat i + routines = UInt64.ofNat (i + routines.toNat) := by
        rw [UInt64.ofNat_add, UInt64.ofNat_toNat]
      rw [hsum, ih (i + routines.toNat) hwrap (by omega) (by omega), Option.map_some,
        roundIds_append h hwrap]
    · rw [Nat.sub_eq_zero_of_le (not_lt.mp fun h' => h (hlt.mpr h'))]
      rfl

/-- Whatever wraps, no node below half of the range is left out. -/
theorem mem_nodeIds {fuel i v : ℕ} {nodes : List UInt64}
    (h : nodeIds numNodes routines fuel (UInt64.ofNat i) = some nodes)
    (hstart : i = 0 ∨ routines.toNat ≤ i) (hi : i ≤ v) (hv : v < numNodes.toNat)
    (hhalf : v < 2 ^ 63) : UInt64.ofNat v ∈ nodes := by
  induction fuel generalizing i nodes with
  | zero => exact absurd h.symm (Option.some_ne_none nodes)
  | succ fuel ih =>
    have hbound := routines.toNat_lt
    have hnat : (UInt64.ofNat i).toNat = i :=
      UInt64.toNat_ofNat_of_lt' (by show i < 2 ^ 64; omega)
    have hlt : UInt64.ofNat i < numNodes := by
      rw [UInt64.lt_iff_toNat_lt, hnat]
      omega
    have hwrap : i + routines.toNat < 2 ^ 64 := by omega
    have hsum : UInt64.ofNat i + routines = UInt64.ofNat (i + routines.toNat) := by
      rw [UInt64.ofNat_add, UInt64.ofNat_toNat]
    rw [nodeIds, if_pos hlt] at h
    obtain ⟨rest, hrest, rfl⟩ := Option.map_eq_some_iff.mp h
    rw [hsum] at hrest
    apply List.mem_append.mpr
    by_cases hround : v < i + routines.toNat
    · left
      apply List.mem_map_of_mem
      rw [hsum, hnat, UInt64.toNat_ofNat_of_lt' hwrap, List.mem_range'_1]
      omega
    · right
      exact ih hrest (by omega) (by omega)

/-- What the goroutines write. -/
def degreeRecords (es : List (UInt64 × UInt64)) (n : ℕ) : List U64WriteRecord :=
  (List.range n).map fun v =>
    ⟨UInt64.ofNat v * sizeofu64, UInt64.ofNat (degree es (UInt64.ofNat v))⟩

def degreeWords (es : List (UInt64 × UInt64)) (n : ℕ) : List UInt64 :=
  (List.range n).map fun v => UInt64.ofNat (degree es (UInt64.ofNat v))

/-- Records for consecutive words. -/
theorem map_write_range {n k : ℕ} (pos val : ℕ → UInt64)
    (hpos : ∀ j < n, (pos j).toNat = 8 * (k + j)) :
    ((List.range n).map fun j => (⟨pos j, val j⟩ : U64WriteRecord)).map U64WriteRecord.write =
      wordWrites ((List.range n).map val) k := by
  apply List.ext_getElem
  · simp [wordWrites]
  · intro j hj _
    have hj : j < n := by simpa using hj
    simp [wordWrites, U64WriteRecord.write, hpos j hj]

theorem degreeRecords_write (es : List (UInt64 × UInt64)) {n : ℕ} (hn : 8 * n ≤ 2 ^ 63) :
    (degreeRecords es n).map U64WriteRecord.write = wordWrites (degreeWords es n) 0 ∧
      ∀ r ∈ degreeRecords es n, r.pos.toNat < 2 ^ 63 := by
  have hpos {v : ℕ} (hv : v < n) : (UInt64.ofNat v * sizeofu64).toNat = 8 * (0 + v) := by
    rw [UInt64.toNat_mul, UInt64.toNat_ofNat_of_lt' (by show v < 2 ^ 64; omega)]
    show v * 8 % 2 ^ 64 = _
    omega
  refine ⟨map_write_range _ _ fun v hv => hpos hv, ?_⟩
  intro r hr
  obtain ⟨v, hv, rfl⟩ := List.mem_map.mp hr
  have hv := List.mem_range.mp hv
  show (UInt64.ofNat v * sizeofu64).toNat < _
  rw [hpos hv]
  omega

/-- With its number of nodes the converter writes the degree of each node. -/
theorem bel2bdfConvertOnto_eq {reorder : List U64WriteRecord → List U64WriteRecord}
    (hperm : ∀ rs, (reorder rs).Perm rs) (hroutines : 0 < routines.toNat)
    (hnodes : 8 * numNodes.toNat ≤ 2 ^ 63) (hsize : file.length < 2 ^ 63) (dstFile : List UInt8) :
    bel2bdfConvertOnto reorder routines file numNodes dstFile =
      some (overlay (encodeWords (degreeWords (begunEdges file) numNodes.toNat)) dstFile) := by
  have hids := nodeIds_eq hroutines (show numNodes.toNat ≤ 2 ^ 63 by omega) (numNodes.toNat + 1) 0
    (by decide) (Or.inl rfl) (by omega)
  rw [Nat.sub_zero, ← List.range_eq_range'] at hids
  have hrecords : ((List.range numNodes.toNat).map UInt64.ofNat).mapM (fun nodeID =>
      calculateDegrees nodeID
        (UInt64.ofNat file.length - UInt64.ofNat file.length % sizeofu64) file) =
      some (degreeRecords (begunEdges file) numNodes.toNat) := by
    simp only [calculateDegrees_eq hsize]
    exact (List.mapM_pure (m := Option)).trans (congrArg some (List.map_map ..))
  obtain ⟨hwrites, hpos⟩ := degreeRecords_write (begunEdges file) hnodes
  have hdrain := drain_some dstFile fun r hr =>
    hpos r ((hperm (degreeRecords (begunEdges file) numNodes.toNat)).mem_iff.mp hr)
  rw [apply_wordWrites_overlay (hwrites ▸ (hperm _).map _)] at hdrain
  unfold bel2bdfConvertOnto
  dsimp only
  rw [show (0 : UInt64) = UInt64.ofNat 0 from rfl, hids]
  simp only [Option.bind_eq_bind, Option.bind_some, hrecords]
  exact hdrain

theorem bel2bdfConvert_eq {reorder : List U64WriteRecord → List U64WriteRecord}
    (hperm : ∀ rs, (reorder rs).Perm rs) (hroutines : 0 < routines.toNat)
    (hnodes : 8 * numNodes.toNat ≤ 2 ^ 63) (hsize : file.length < 2 ^ 63) :
    bel2bdfConvert reorder routines file numNodes =
      some (encodeWords (degreeWords (begunEdges file) numNodes.toNat)) := by
  have hrun := bel2bdfConvertOnto_eq hperm hroutines hnodes hsize []
  rw [overlay_nil] at hrun
  exact hrun

/-- Each source of the list has its degree, the degrees add up to the number of edges, and the number of
nodes is greater than every vertex. -/
structure DegreesOf (es : List (UInt64 × UInt64)) (numNodes : UInt64) (bdf : List UInt8) : Prop where
  degree : ∀ e ∈ es, 8 * e.1.toNat + 8 ≤ bdf.length ∧
    (wordAt bdf (8 * e.1.toNat)).toNat = degree es e.1
  total : ∑ v ∈ Finset.range (bdf.length / 8), (wordAt bdf (8 * v)).toNat = es.length
  bound : ∀ e ∈ es, e.1 < numNodes ∧ e.2 < numNodes

/-- The degrees of some of the first nodes count the edges from these. -/
theorem sum_degree_filter {n : ℕ} (hn : n ≤ 2 ^ 64) (p : ℕ → Prop) [DecidablePred p]
    (es : List (UInt64 × UInt64)) :
    ∑ v ∈ (Finset.range n).filter p, degree es (UInt64.ofNat v) =
      es.countP fun e => e.1.toNat < n ∧ p e.1.toNat := by
  induction es with
  | nil => exact Finset.sum_const_zero
  | cons e es ih =>
    have hone : ∑ v ∈ (Finset.range n).filter p, (if v = e.1.toNat then 1 else 0) =
        if e.1.toNat < n ∧ p e.1.toNat then 1 else 0 := by
      rw [Finset.sum_ite_eq']
      simp only [Finset.mem_filter, Finset.mem_range]
    have hstep : ∀ v ∈ (Finset.range n).filter p, degree (e :: es) (UInt64.ofNat v) =
        degree es (UInt64.ofNat v) + if v = e.1.toNat then 1 else 0 := by
      intro v hv
      have hv : v < 2 ^ 64 := (Finset.mem_range.mp (Finset.mem_filter.mp hv).1).trans_le hn
      have heq : e.1 = UInt64.ofNat v ↔ v = e.1.toNat := by
        rw [← UInt64.toNat_inj, UInt64.toNat_ofNat_of_lt' hv]
        exact eq_comm
      rw [degree, degree, List.countP_cons]
      simp only [decide_eq_true_eq, heq]
    rw [Finset.sum_congr rfl hstep, Finset.sum_add_distrib, ih, hone, List.countP_cons]
    simp only [decide_eq_true_eq]

theorem sum_degree {n : ℕ} (hn : n ≤ 2 ^ 64) (hsrc : ∀ e ∈ es, e.1.toNat < n) :
    ∑ v ∈ Finset.range n, degree es (UInt64.ofNat v) = es.length := by
  have hsum := sum_degree_filter hn (fun _ => True) es
  rw [Finset.filter_true_of_mem fun _ _ => trivial] at hsum
  rw [hsum, List.countP_eq_length]
  exact fun e he => decide_eq_true ⟨hsrc e he, trivial⟩

@[simp] theorem degreeWords_length (es : List (UInt64 × UInt64)) (n : ℕ) :
    (encodeWords (degreeWords es n)).length = 8 * n := by
  rw [encodeWords_length, degreeWords, List.length_map, List.length_range]

theorem wordAt_degreeWords (hes : es.length < 2 ^ 64) {n v : ℕ} (hv : v < n) :
    (wordAt (encodeWords (degreeWords es n)) (8 * v)).toNat = degree es (UInt64.ofNat v) := by
  have hle : degree es (UInt64.ofNat v) ≤ es.length := List.countP_le_length
  have hget : (degreeWords es n)[v]? = some (UInt64.ofNat (degree es (UInt64.ofNat v))) := by
    simp [degreeWords, hv]
  rw [wordAt_encodeWords hget]
  exact UInt64.toNat_ofNat_of_lt' (hle.trans_lt hes)

/-- A number of nodes that is large enough gives all degrees. -/
theorem degreesOf_of_bound (hsize : 16 * es.length < 2 ^ 63)
    (hbound : ∀ e ∈ es, e.1 < numNodes ∧ e.2 < numNodes) :
    DegreesOf es numNodes (encodeWords (degreeWords es numNodes.toNat)) := by
  have hlen := degreeWords_length es numNodes.toNat
  have hshort : es.length < 2 ^ 64 := by omega
  have hword {v : ℕ} (hv : v < numNodes.toNat) := wordAt_degreeWords hshort hv
  have hsrc : ∀ e ∈ es, e.1.toNat < numNodes.toNat := fun e he =>
    UInt64.lt_iff_toNat_lt.mp (hbound e he).1
  constructor
  case degree =>
    intro e he
    have hlt := hsrc e he
    refine ⟨by omega, ?_⟩
    rw [hword hlt, UInt64.ofNat_toNat]
  case total =>
    rw [hlen, Nat.mul_div_cancel_left _ (by decide : 0 < 8), ← sum_degree numNodes.toNat_lt.le hsrc]
    exact Finset.sum_congr rfl fun v hv => hword (Finset.mem_range.mp hv)
  case bound => exact hbound

end Degrees

/-- The number of vertices that is reported is 1, which is enough if and only if all vertices are 0. -/
theorem bel2bdfConvert_degrees_iff (reorder reorder' : List U64WriteRecord → List U64WriteRecord)
    (hperm : ∀ rs, (reorder rs).Perm rs) (hperm' : ∀ rs, (reorder' rs).Perm rs)
    (routines : UInt64) (hroutines : 1 ≤ routines) (comma comment : Char) (inputFile : List Char)
    {es : List (UInt64 × UInt64)} (hes : textEdges comma comment inputFile = some es)
    (hsize : 16 * es.length < 2 ^ 63) :
    (∃ bel numVerts bdf, el2belConvert reorder comma comment inputFile = some (bel, numVerts) ∧
        bel2bdfConvert reorder' routines bel numVerts = some bdf ∧ DegreesOf es numVerts bdf) ↔
      ∀ e ∈ es, e.1 = 0 ∧ e.2 = 0 := by
  have hone (v : UInt64) : v < 1 ↔ v = 0 := by
    rw [UInt64.lt_iff_toNat_lt, ← UInt64.toNat_inj]
    exact Nat.lt_one_iff
  have hbel := el2belConvert_eq hperm hes hsize.le
  constructor
  · rintro ⟨bel, numVerts, bdf, hrun, -, hdegrees⟩ e he
    obtain ⟨rfl, rfl⟩ := Prod.mk.inj (Option.some.inj (hbel.symm.trans hrun))
    obtain ⟨hsrc, hdst⟩ := hdegrees.bound e he
    exact ⟨(hone _).mp hsrc, (hone _).mp hdst⟩
  · intro hzero
    have hlt := routines.toNat_lt
    have hbdf : bel2bdfConvert reorder' routines (edgeList es) 1 = _ := bel2bdfConvert_eq hperm'
      (UInt64.le_iff_toNat_le.mp hroutines) (by decide) (by rwa [edgeList_length])
    rw [begunEdges_edgeList] at hbdf
    refine ⟨_, _, _, hbel, hbdf, degreesOf_of_bound hsize fun e he => ?_⟩
    exact ⟨(hone _).mpr (hzero e he).1, (hone _).mpr (hzero e he).2⟩

theorem delims_default : Delims ',' '#' := by
  constructor
  all_goals decide

/-- The only degree that is written is that of node 0. -/
theorem bel2bdfConvert_oneEdge :
    textEdges ',' '#' (edgesText ',' '#' [.edge 1 0]) = some [(1, 0)] ∧
      el2belConvert id ',' '#' (edgesText ',' '#' [.edge 1 0]) = some (edgeList [(1, 0)], 1) ∧
      bel2bdfConvert id 1 (edgeList [(1, 0)]) 1 = some (encodeWords [0]) ∧
      ¬ DegreesOf [(1, 0)] 1 (encodeWords [0]) := by
  have hes := textEdges_edgesText delims_default [.edge 1 0] (by simp [EdgeLine.Ok])
  refine ⟨hes, el2belConvert_eq (fun _ => .refl _) hes (by decide), by decide, fun h => ?_⟩
  exact absurd h.total (by decide)

theorem bel2bdfConvert_degrees_loop : ∃ bel numVerts bdf,
    el2belConvert List.reverse ',' '#' (edgesText ',' '#' [.edge 0 0, .blank, .edge 0 0]) =
        some (bel, numVerts) ∧
      bel2bdfConvert id 4 bel numVerts = some bdf ∧ DegreesOf [(0, 0), (0, 0)] numVerts bdf :=
  (bel2bdfConvert_degrees_iff List.reverse id List.reverse_perm (fun _ => .refl _) 4 (by decide)
    ',' '#' _ (textEdges_edgesText delims_default _ (by simp [EdgeLine.Ok])) (by decide)).mpr
    (by simp [edgesOf, EdgeLine.pair])

end GraphConvert
