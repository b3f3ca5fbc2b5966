import GraphLogSketch.Scripts.CommercialRecords
import GraphLogSketch.Wf4.VertexIds

/-! The data sets that `generate.sh` makes, as the parsers read them: the ends of the edges are the
vertices, each of them of the kind that the edge says, and no two vertices get one id. -/
namespace Wf4
open Commercial ExtractNodes RecordFiles TextLines TextStreams

section Generate

/-- The arguments of the scripts. -/
structure Arguments where
  commercial : Parameters
  cyber : ℕ
  social : ℕ
  uses : ℕ × ℕ

structure GeneratorDraws where
  saleIds : List UnitDraw
  market : Commercial.Draws
  cyber : ℕ → CyberDraws
  social : ℕ → SocialDraws
  uses : ℕ → UsesDraws

/-- The orders of sets, and what the shuffles do. -/
structure Orders where
  set : SetOrder
  iter : List (List Char) → List (List Char)
  shuffleSales : List (List Char) → List (List Char)
  shuffleNodes : List (List Char) → List (List Char)
  iter_perm : ∀ l, (iter l).Perm l
  shuffleSales_perm : ∀ l, (shuffleSales l).Perm l
  shuffleNodes_perm : ∀ l, (shuffleNodes l).Perm l

/-- The texts of the files with edges. -/
structure EdgeTexts where
  commercial : List Char
  cyber : List Char
  social : List Char
  uses : List Char

variable (str : ℚ → List Char) (o : Orders)

def generateEdges (a : Arguments) (d : GeneratorDraws) (saleFile netflow : List Char) :
    Option EdgeTexts := do
  let commercial ← Commercial.main str o.set o.shuffleSales a.commercial d.saleIds d.market saleFile
  let cyber ← cyber a.cyber d.cyber netflow
  let social ← social a.social d.social
  let uses ← uses a.uses.1 a.uses.2 d.uses
  return ⟨commercial, cyber, social, uses⟩

def generateNodes (t : EdgeTexts) : Option (List Char) :=
  ExtractNodes.main o.iter o.shuffleNodes t.commercial t.cyber t.social t.uses

end Generate

/-- What the constructor from the tokens of a sale sets; the kinds are those of a sale between persons,
and the date is not read again. -/
structure ParsedSale where
  amount : ℚ
  src : UInt64
  dst : UInt64
  topic : UInt64

/-- A token that may be missing. -/
def readOrZero {α : Type*} [Zero α] (read : List Char → Option α) (token : List Char) : Option α :=
  if token = [] then some 0 else read token

def parsedSale (stod : List Char → Option ℚ) (tokens : List (List Char)) : Option ParsedSale := do
  let amount ← readOrZero stod (tokens.getD 7 [])
  let src ← stoull (tokens.getD 1 [])
  let dst ← stoull (tokens.getD 2 [])
  let topic ← readOrZero stoull (tokens.getD 3 [])
  return ⟨amount, src, dst, topic⟩

/-- A vertex as an edge or a node line gives it. -/
structure Vertex where
  id : UInt64
  type : Types
  deriving DecidableEq

/-- A file with edges: the column of the source, the kinds of the ends, and the ends that are parsed. -/
structure EdgeFile where
  file : TextFile
  column : ℕ
  srcType : Types
  dstType : Types
  parse : List Char → Option (Vertex × Vertex)

def ParsedEdge.ends (e : ParsedEdge) : Vertex × Vertex := (⟨e.src, e.srcType⟩, ⟨e.dst, e.dstType⟩)

def ParsedSale.ends (s : ParsedSale) : Vertex × Vertex := (⟨s.src, .person⟩, ⟨s.dst, .person⟩)

section Parsed
variable (splitLine : List Char → Char → ℕ → List (List Char))
  (wmdParseLine : List Char → Option ParsedSale) (encode : List Char → UInt64)

/-- The files with edges, and their parsers; that of the sales is a `WMDParser`. -/
def edgeFiles (d : Records) : List EdgeFile :=
  [⟨d.commercial, 1, .person, .person, fun line => (wmdParseLine line).map ParsedSale.ends⟩,
    ⟨d.cyber, 0, .device, .device, fun line => (cyberParseLine splitLine line).map ParsedEdge.ends⟩,
    ⟨d.social, 0, .person, .person, fun line => (socialParseLine splitLine line).map ParsedEdge.ends⟩,
    ⟨d.uses, 0, .person, .device, fun line => (usesParseLine splitLine line).map ParsedEdge.ends⟩]

def parsedNode (line : List Char) : Vertex :=
  ⟨(nodeParseLine splitLine encode line).id, (nodeParseLine splitLine encode line).type⟩

/-- What the parsers make of a data set. -/
structure Closed (d : Records) (nodes : TextFile) : Prop where
  nodup : ((records nodes).map fun line => (parsedNode splitLine encode line).id).Nodup
  edges : ∀ e ∈ edgeFiles splitLine wmdParseLine d, ∀ line ∈ records e.file, ∃ src dst,
    e.parse line = some (src, dst) ∧ src ∈ (records nodes).map (parsedNode splitLine encode) ∧
      dst ∈ (records nodes).map (parsedNode splitLine encode)
  ends : ∀ v ∈ (records nodes).map (parsedNode splitLine encode),
    ∃ e ∈ edgeFiles splitLine wmdParseLine d, ∃ line ∈ records e.file, ∃ src dst,
      e.parse line = some (src, dst) ∧ (src = v ∨ dst = v)

end Parsed

/-- What is known of the tokens of a line: they are its fields, if there are as many tokens as fields; if
there are more fields, those before the last token are. -/
structure SplitsFields (splitLine : List Char → Char → ℕ → List (List Char)) : Prop where
  all : ∀ line n, (line.splitOn ',').length = n →
    ∀ i < n, (splitLine line ',' n).getD i [] = field i line
  some : ∀ line n, n ≤ (line.splitOn ',').length →
    ∀ i, i + 1 < n → (splitLine line ',' n).getD i [] = field i line

/-- What is known of `WMDParser::ParseLine`: the tokens of a sale are handed to the constructor. -/
def ParsesSales (splitLine : List Char → Char → ℕ → List (List Char)) (stod : List Char → Option ℚ)
    (wmdParseLine : List Char → Option ParsedSale) : Prop :=
  ∀ line, field 0 line = "Sale".toList → wmdParseLine line = parsedSale stod (splitLine line ',' 8)

section Numbers
variable {id id' : ℕ} {type type' : Types}

/-- A number as the scripts write it is read as itself. -/
theorem stoull_toDigits (hid : id < 2 ^ 64) : stoull (Nat.toDigits 10 id) = some (UInt64.ofNat id) := by
  have hdigit : ∀ c ∈ Nat.toDigits 10 id, c.isDigit = true := fun c hc =>
    Nat.isDigit_of_mem_toDigits (by decide) (by decide) hc
  obtain ⟨c, cs, hcs⟩ := List.exists_cons_of_ne_nil (Nat.toDigits_ne_nil (b := 10) (n := id))
  have hc := hdigit c (by simp [hcs])
  have hspace : (Nat.toDigits 10 id).dropWhile isSpace = Nat.toDigits 10 id := by
    rw [hcs, List.dropWhile_cons_of_neg (by simp [not_isSpace_of_isDigit hc])]
  have hsign : (Nat.toDigits 10 id).head? ≠ some '-' ∧ (Nat.toDigits 10 id).head? ≠ some '+' := by
    rw [hcs, List.head?_cons]
    constructor
    all_goals
      intro h
      rw [Option.some.inj h] at hc
      exact absurd hc (by decide)
  have hall : (Nat.toDigits 10 id).takeWhile Char.isDigit = Nat.toDigits 10 id :=
    List.takeWhile_eq_self_iff.mpr hdigit
  unfold stoull
  simp only [hspace, hsign.1, hsign.2, or_self, if_false, hall, Nat.ofDigitChars_ten_toDigits]
  rw [if_neg (not_or.mpr ⟨Nat.toDigits_ne_nil, not_le.mpr hid⟩)]

/-- The id of the vertex that a number stands for. -/
def vertexId (type : Types) (id : ℕ) : UInt64 :=
  if type = .device then halfMax + UInt64.ofNat id % halfMax else UInt64.ofNat id

theorem vertexId_toNat (hid : id < 2 ^ 63 - 1) :
    (vertexId type id).toNat = if type = .device then 2 ^ 63 - 1 + id else id := by
  have hnat : (UInt64.ofNat id).toNat = id := UInt64.toNat_ofNat_of_lt' (show id < 2 ^ 64 by omega)
  unfold vertexId
  split_ifs
  · rw [device_id_toNat, hnat, Nat.mod_eq_of_lt hid]
  · exact hnat

/-- Small numbers of persons and devices give different ids. -/
theorem vertexId_inj (hid : id < 2 ^ 63 - 1) (hid' : id' < 2 ^ 63 - 1)
    (htype : type = .person ∨ type = .device) (htype' : type' = .person ∨ type' = .device)
    (h : vertexId type id = vertexId type' id') : type = type' ∧ id = id' := by
  have h := congrArg UInt64.toNat h
  rw [vertexId_toNat hid, vertexId_toNat hid'] at h
  rcases htype with rfl | rfl <;> rcases htype' with rfl | rfl
  all_goals simp only [reduceCtorEq, if_true, if_false] at h
  · exact ⟨rfl, h⟩
  · omega
  · omega
  · exact ⟨rfl, by omega⟩

/-- The line of a node. -/
def nodeLine (type : Types) (id : List Char) : List Char :=
  if type = .device then deviceLine id else personLine id

theorem nodeLine_fields (type : Types) {id : List Char} (h : ',' ∉ id) :
    (nodeLine type id).splitOn ',' =
      (if type = .device then ['D', 'e', 'v', 'i', 'c', 'e'] else ['P', 'e', 'r', 's', 'o', 'n']) ::
        id :: List.replicate 6 [] := by
  have hline : nodeLine type id = [','].intercalate
      ((if type = .device then ['D', 'e', 'v', 'i', 'c', 'e'] else ['P', 'e', 'r', 's', 'o', 'n']) ::
        id :: List.replicate 6 []) := by
    unfold nodeLine
    split_ifs
    · simp [deviceLine, List.replicate, List.intercalate_cons_cons]
    · simp [personLine, List.replicate, List.intercalate_cons_cons]
  rw [hline]
  apply List.splitOn_intercalate
  · intro l hl
    simp only [List.mem_cons, List.mem_replicate] at hl
    rcases hl with rfl | rfl | ⟨-, rfl⟩
    · split_ifs <;> decide
    · exact h
    · exact List.not_mem_nil
  · exact List.cons_ne_nil _ _

end Numbers

/-- The kind of a sale, and the fields that the parser of sales reads numbers in. -/
def SaleField (stod : List Char → Option ℚ) (i : ℕ) (f : List Char) : Prop :=
  (i = 0 → f = "Sale".toList) ∧ (i = 3 → (readOrZero stoull f).isSome) ∧
    (i = 7 → (readOrZero stod f).isSome)

/-- What the files hold where the parsers read numbers. -/
structure Readable (stod : List Char → Option ℚ) (d : Records) : Prop where
  commercial : IdRecords 8 [1, 2] (2 ^ 63 - 1) (SaleField stod) d.commercial
  cyber : IdRecords 11 [0, 1] (2 ^ 63 - 1) (fun _ f => (stoull f).isSome) d.cyber
  social : IdRecords 2 [0, 1] (2 ^ 63 - 1) (fun _ _ => True) d.social
  uses : IdRecords 2 [0, 1] (2 ^ 63 - 1) (fun _ _ => True) d.uses

/-- An edge file as its lines are read. -/
def EdgeFile.Parses (e : EdgeFile) : Prop := ∀ line ∈ records e.file, ∃ a b,
  a < 2 ^ 63 - 1 ∧ b < 2 ^ 63 - 1 ∧ field e.column line = Nat.toDigits 10 a ∧
    field (e.column + 1) line = Nat.toDigits 10 b ∧
    e.parse line = some (⟨vertexId e.srcType a, e.srcType⟩, ⟨vertexId e.dstType b, e.dstType⟩)

section Edges
variable {splitLine : List Char → Char → ℕ → List (List Char)} {stod : List Char → Option ℚ}
  {wmdParseLine : List Char → Option ParsedSale} {Property : ℕ → List Char → Prop}
  {line : List Char} {n c a b : ℕ}

/-- The ids of a row in the columns. -/
theorem exists_ids {columns : List ℕ} {bound : ℕ} (h : IsRow n columns bound Property (line.splitOn ','))
    (hc : c ∈ columns) (hc' : c + 1 ∈ columns) : ∃ a b, a < bound ∧ b < bound ∧
      field c line = Nat.toDigits 10 a ∧ field (c + 1) line = Nat.toDigits 10 b := by
  obtain ⟨a, ha, hfield⟩ := h.ids c hc
  obtain ⟨b, hb, hfield'⟩ := h.ids (c + 1) hc'
  exact ⟨a, b, ha, hb, hfield, hfield'⟩

theorem wmdParseLine_parses (hsplit : SplitsFields splitLine)
    (hwmd : ParsesSales splitLine stod wmdParseLine) {f : TextFile}
    (h : IdRecords 8 [1, 2] (2 ^ 63 - 1) (SaleField stod) f) :
    EdgeFile.Parses ⟨f, 1, .person, .person, fun line => (wmdParseLine line).map ParsedSale.ends⟩ := by
  intro line hline
  have hrow := h line hline
  obtain ⟨a, b, ha, hb, hsrc, hdst⟩ := exists_ids hrow (c := 1) (by simp) (by simp)
  have hkind := (hrow.property 0 (by decide) (by decide)).1 rfl
  obtain ⟨topic, htopic⟩ :=
    Option.isSome_iff_exists.mp ((hrow.property 3 (by decide) (by decide)).2.1 rfl)
  obtain ⟨amount, hamount⟩ :=
    Option.isSome_iff_exists.mp ((hrow.property 7 (by decide) (by decide)).2.2 rfl)
  have htoken := hsplit.all line 8 hrow.length
  have hread := stoull_toDigits (ha.trans (by decide))
  have hread' := stoull_toDigits (hb.trans (by decide))
  refine ⟨a, b, ha, hb, hsrc, hdst, ?_⟩
  have htopic : readOrZero stoull (field 3 line) = some topic := htopic
  have hamount : readOrZero stod (field 7 line) = some amount := hamount
  simp only [hwmd line hkind, parsedSale, htoken 1 (by decide), htoken 2 (by decide), htoken 3 (by decide),
    htoken 7 (by decide), hsrc, hdst, hread, hread', htopic, hamount]
  rfl

/-- The ids that the constructor of the other edges reads. -/
theorem parsedEdge_ids {type : Types} {tokens : List (List Char)} (ha : a < 2 ^ 63 - 1)
    (hb : b < 2 ^ 63 - 1) (hsrc : tokens.getD 0 [] = Nat.toDigits 10 a)
    (hdst : tokens.getD 1 [] = Nat.toDigits 10 b) :
    (type = .friend → (parsedEdge type tokens).map ParsedEdge.ends =
      some (⟨vertexId .person a, .person⟩, ⟨vertexId .person b, .person⟩)) ∧
    (type = .uses → (parsedEdge type tokens).map ParsedEdge.ends =
      some (⟨vertexId .person a, .person⟩, ⟨vertexId .device b, .device⟩)) ∧
    (type = .communication → (parsedCommunication tokens).isSome →
      (parsedEdge type tokens).map ParsedEdge.ends =
        some (⟨vertexId .device a, .device⟩, ⟨vertexId .device b, .device⟩)) := by
  have hread := stoull_toDigits (ha.trans (by decide))
  have hread' := stoull_toDigits (hb.trans (by decide))
  refine ⟨?_, ?_, ?_⟩
  · rintro rfl
    simp only [parsedEdge, hsrc, hdst, hread, hread']
    rfl
  · rintro rfl
    simp only [parsedEdge, hsrc, hdst, hread, hread']
    rfl
  · rintro rfl hcommunication
    obtain ⟨communication, hcommunication⟩ := Option.isSome_iff_exists.mp hcommunication
    simp only [parsedEdge, hsrc, hdst, hread, hread', hcommunication]
    rfl

theorem parsedCommunication_isSome {tokens : List (List Char)}
    (h : ∀ i, 2 ≤ i → i < 11 → (stoull (tokens.getD i [])).isSome) :
    (parsedCommunication tokens).isSome := by
  simp only [Option.isSome_iff_exists] at h
  obtain ⟨v₂, h₂⟩ := h 2 (by decide) (by decide)
  obtain ⟨v₃, h₃⟩ := h 3 (by decide) (by decide)
  obtain ⟨v₄, h₄⟩ := h 4 (by decide) (by decide)
  obtain ⟨v₅, h₅⟩ := h 5 (by decide) (by decide)
  obtain ⟨v₆, h₆⟩ := h 6 (by decide) (by decide)
  obtain ⟨v₇, h₇⟩ := h 7 (by decide) (by decide)
  obtain ⟨v₈, h₈⟩ := h 8 (by decide) (by decide)
  obtain ⟨v₉, h₉⟩ := h 9 (by decide) (by decide)
  obtain ⟨v₁₀, h₁₀⟩ := h 10 (by decide) (by decide)
  simp only [parsedCommunication, h₂, h₃, h₄, h₅, h₆, h₇, h₈, h₉, h₁₀]
  rfl

/-- The lines of all files are parsed, with the ids of their columns. -/
theorem edgeFiles_parses (hsplit : SplitsFields splitLine)
    (hwmd : ParsesSales splitLine stod wmdParseLine) {d : Records} (h : Readable stod d) :
    ∀ e ∈ edgeFiles splitLine wmdParseLine d, e.Parses := by
  have hparse {f : TextFile} {n : ℕ} {Property : ℕ → List Char → Prop}
      (hf : IdRecords n [0, 1] (2 ^ 63 - 1) Property f) (hn : 2 ≤ n) :
      ∀ line ∈ records f, ∃ a b, a < 2 ^ 63 - 1 ∧ b < 2 ^ 63 - 1 ∧
        field 0 line = Nat.toDigits 10 a ∧ field 1 line = Nat.toDigits 10 b ∧
        (splitLine line ',' n).getD 0 [] = Nat.toDigits 10 a ∧
        (splitLine line ',' n).getD 1 [] = Nat.toDigits 10 b := by
    intro line hline
    have hrow := hf line hline
    obtain ⟨a, b, ha, hb, hsrc, hdst⟩ := exists_ids hrow (c := 0) (by simp) (by simp)
    have htoken := hsplit.all line n hrow.length
    exact ⟨a, b, ha, hb, hsrc, hdst, (htoken 0 (by omega)).trans hsrc, (htoken 1 (by omega)).trans hdst⟩
  simp only [edgeFiles, List.forall_mem_cons, List.not_mem_nil, IsEmpty.forall_iff, implies_true, and_true]
  refine ⟨wmdParseLine_parses hsplit hwmd h.commercial, ?_, ?_, ?_⟩
  · intro line hline
    obtain ⟨a, b, ha, hb, hsrc, hdst, hsrc', hdst'⟩ := hparse h.cyber (by decide) line hline
    have hrow := h.cyber line hline
    have hcommunication := parsedCommunication_isSome fun i hi hi' => by
      rw [hsplit.all line 11 hrow.length i hi']
      exact hrow.property i hi' (by simp; omega)
    exact ⟨a, b, ha, hb, hsrc, hdst, (parsedEdge_ids ha hb hsrc' hdst').2.2 rfl hcommunication⟩
  · intro line hline
    obtain ⟨a, b, ha, hb, hsrc, hdst, hsrc', hdst'⟩ := hparse h.social le_rfl line hline
    exact ⟨a, b, ha, hb, hsrc, hdst, (parsedEdge_ids ha hb hsrc' hdst').1 rfl⟩
  · intro line hline
    obtain ⟨a, b, ha, hb, hsrc, hdst, hsrc', hdst'⟩ := hparse h.uses le_rfl line hline
    exact ⟨a, b, ha, hb, hsrc, hdst, (parsedEdge_ids ha hb hsrc' hdst').2.1 rfl⟩

end Edges

section Vertices
variable {splitLine : List Char → Char → ℕ → List (List Char)} {stod : List Char → Option ℚ}
  {wmdParseLine : List Char → Option ParsedSale} {encode : List Char → UInt64} {d : Records}
  {type : Types} {id : ℕ} {text : List Char}

/-- A node line is read as the vertex of its number. -/
theorem parsedNode_nodeLine (hsplit : SplitsFields splitLine)
    (hencode : ∀ token raw, stoull token = some raw → encode token = raw)
    (htype : type = .person ∨ type = .device) (hid : id < 2 ^ 63 - 1) :
    parsedNode splitLine encode (nodeLine type (Nat.toDigits 10 id)) = ⟨vertexId type id, type⟩ := by
  have hfields := nodeLine_fields type (notMem_toDigits (c := ',') (by decide) id)
  have hlen : 7 ≤ ((nodeLine type (Nat.toDigits 10 id)).splitOn ',').length := by
    rw [hfields]
    simp
  have hkind := hsplit.some _ 7 hlen 0 (by decide)
  have hraw := hsplit.some _ 7 hlen 1 (by decide)
  rw [field, hfields, List.getD_cons_zero] at hkind
  rw [field, hfields, List.getD_cons_succ, List.getD_cons_zero] at hraw
  have hnumber := hencode _ _ (stoull_toDigits (hid.trans (by decide)))
  unfold parsedNode nodeParseLine
  simp only [hkind, hraw, hnumber, vertexId]
  rcases htype with rfl | rfl
  · simp
  · simp

/-- The ids of a kind in the files. -/
def idTexts (d : Records) (type : Types) : List (List Char) :=
  if type = .device then d.deviceIds else d.personIds

variable (splitLine wmdParseLine) in
theorem mem_idTexts (htype : type = .person ∨ type = .device) : text ∈ idTexts d type ↔
    ∃ e ∈ edgeFiles splitLine wmdParseLine d, ∃ line ∈ records e.file,
      (e.srcType = type ∧ field e.column line = text) ∨
        (e.dstType = type ∧ field (e.column + 1) line = text) := by
  rcases htype with rfl | rfl
  · simp only [idTexts, Records.personIds, edgeFiles]
    simp [exists_or, and_or_left]
    ac_nf
  · simp [idTexts, Records.deviceIds, edgeFiles, exists_or, and_or_left]

theorem edgeFiles_types {e : EdgeFile} (he : e ∈ edgeFiles splitLine wmdParseLine d) :
    (e.srcType = .person ∨ e.srcType = .device) ∧ (e.dstType = .person ∨ e.dstType = .device) := by
  simp only [edgeFiles, List.mem_cons, List.not_mem_nil, or_false] at he
  rcases he with rfl | rfl | rfl | rfl <;> simp

theorem toDigits_inj {a b : ℕ} (h : Nat.toDigits 10 a = Nat.toDigits 10 b) : a = b := by
  have h := congrArg (Nat.ofDigitChars 10 · 0) h
  simpa only [Nat.ofDigitChars_ten_toDigits] using h

/-- The ids are small numbers. -/
theorem exists_id (hsplit : SplitsFields splitLine)
    (hwmd : ParsesSales splitLine stod wmdParseLine) (hread : Readable stod d)
    (htype : type = .person ∨ type = .device) (h : text ∈ idTexts d type) :
    ∃ id < 2 ^ 63 - 1, text = Nat.toDigits 10 id := by
  obtain ⟨e, he, line, hline, hfield⟩ := (mem_idTexts splitLine wmdParseLine htype).mp h
  obtain ⟨a, b, ha, hb, hsrc, hdst, -⟩ := edgeFiles_parses hsplit hwmd hread e he line hline
  rcases hfield with ⟨-, rfl⟩ | ⟨-, rfl⟩
  · exact ⟨a, ha, hsrc⟩
  · exact ⟨b, hb, hdst⟩

variable {nodes : TextFile}

/-- The vertices are those of the ids. -/
theorem mem_vertices (hsplit : SplitsFields splitLine)
    (hwmd : ParsesSales splitLine stod wmdParseLine)
    (hencode : ∀ token raw, stoull token = some raw → encode token = raw) (hread : Readable stod d)
    (hnodes : (records nodes).Perm (d.personIds.dedup.map personLine ++ d.deviceIds.dedup.map deviceLine))
    {v : Vertex} : v ∈ (records nodes).map (parsedNode splitLine encode) ↔
      ∃ type id, (type = .person ∨ type = .device) ∧ id < 2 ^ 63 - 1 ∧
        Nat.toDigits 10 id ∈ idTexts d type ∧ v = ⟨vertexId type id, type⟩ := by
  have hline : v ∈ (records nodes).map (parsedNode splitLine encode) ↔
      ∃ type, (type = .person ∨ type = .device) ∧ ∃ text ∈ idTexts d type,
        parsedNode splitLine encode (nodeLine type text) = v := by
    rw [(hnodes.map _).mem_iff]
    simp [idTexts, nodeLine, or_and_right, exists_or]
  rw [hline]
  constructor
  · rintro ⟨type, htype, text, htext, rfl⟩
    obtain ⟨id, hid, rfl⟩ := exists_id hsplit hwmd hread htype htext
    exact ⟨type, id, htype, hid, htext, parsedNode_nodeLine hsplit hencode htype hid⟩
  · rintro ⟨type, id, htype, hid, htext, rfl⟩
    exact ⟨type, htype, _, htext, parsedNode_nodeLine hsplit hencode htype hid⟩

/-- No two vertices have one id. -/
theorem vertices_nodup (hsplit : SplitsFields splitLine)
    (hwmd : ParsesSales splitLine stod wmdParseLine)
    (hencode : ∀ token raw, stoull token = some raw → encode token = raw) (hread : Readable stod d)
    (hnodes : (records nodes).Perm (d.personIds.dedup.map personLine ++ d.deviceIds.dedup.map deviceLine)) :
    ((records nodes).map fun line => (parsedNode splitLine encode line).id).Nodup := by
  have hid (type : Types) (htype : type = .person ∨ type = .device) :
      ∀ text ∈ (idTexts d type).dedup, ∃ id < 2 ^ 63 - 1, text = Nat.toDigits 10 id ∧
        (parsedNode splitLine encode (nodeLine type text)).id = vertexId type id := by
    intro text htext
    obtain ⟨id, hid, rfl⟩ := exists_id hsplit hwmd hread htype (List.mem_dedup.mp htext)
    exact ⟨id, hid, rfl, by rw [parsedNode_nodeLine hsplit hencode htype hid]⟩
  have hinj (type type' : Types) (htype : type = .person ∨ type = .device)
      (htype' : type' = .person ∨ type' = .device) : ∀ text ∈ (idTexts d type).dedup,
        ∀ text' ∈ (idTexts d type').dedup, (parsedNode splitLine encode (nodeLine type text)).id =
          (parsedNode splitLine encode (nodeLine type' text')).id → type = type' ∧ text = text' := by
    intro text htext text' htext' heq
    obtain ⟨id, hlt, rfl, hvertex⟩ := hid type htype text htext
    obtain ⟨id', hlt', rfl, hvertex'⟩ := hid type' htype' text' htext'
    rw [hvertex, hvertex'] at heq
    obtain ⟨rfl, rfl⟩ := vertexId_inj hlt hlt' htype htype' heq
    exact ⟨rfl, rfl⟩
  have hlist (type : Types) (htype : type = .person ∨ type = .device) : ((idTexts d type).dedup.map
      fun text => (parsedNode splitLine encode (nodeLine type text)).id).Nodup :=
    (List.nodup_dedup _).map_on fun text htext text' htext' heq =>
      (hinj type type htype htype text htext text' htext' heq).2
  rw [(hnodes.map _).nodup_iff, List.map_append, List.map_map, List.map_map, List.nodup_append]
  refine ⟨hlist .person (Or.inl rfl), hlist .device (Or.inr rfl), ?_⟩
  intro i hi j hj heq
  obtain ⟨text, htext, rfl⟩ := List.mem_map.mp hi
  obtain ⟨text', htext', rfl⟩ := List.mem_map.mp hj
  exact absurd (hinj .person .device (Or.inl rfl) (Or.inr rfl) text htext text' htext'
    heq).1 (by decide)

theorem closed_of_perm (hsplit : SplitsFields splitLine)
    (hwmd : ParsesSales splitLine stod wmdParseLine)
    (hencode : ∀ token raw, stoull token = some raw → encode token = raw) (hread : Readable stod d)
    (hnodes : (records nodes).Perm (d.personIds.dedup.map personLine ++ d.deviceIds.dedup.map deviceLine)) :
    Closed splitLine wmdParseLine encode d nodes where
  nodup := vertices_nodup hsplit hwmd hencode hread hnodes
  edges := by
    intro e he line hline
    obtain ⟨a, b, ha, hb, hsrc, hdst, hparse⟩ := edgeFiles_parses hsplit hwmd hread e he line hline
    obtain ⟨hsrcType, hdstType⟩ := edgeFiles_types he
    have hmem {v : Vertex} := mem_vertices hsplit hwmd hencode hread hnodes (v := v)
    refine ⟨_, _, hparse, hmem.mpr ⟨_, a, hsrcType, ha, ?_, rfl⟩, hmem.mpr ⟨_, b, hdstType, hb, ?_, rfl⟩⟩
    · exact (mem_idTexts splitLine wmdParseLine hsrcType).mpr ⟨e, he, line, hline, Or.inl ⟨rfl, hsrc⟩⟩
    · exact (mem_idTexts splitLine wmdParseLine hdstType).mpr ⟨e, he, line, hline, Or.inr ⟨rfl, hdst⟩⟩
  ends := by
    intro v hv
    obtain ⟨type, id, htype, -, htext, rfl⟩ := (mem_vertices hsplit hwmd hencode hread hnodes).mp hv
    obtain ⟨e, he, line, hline, hfield⟩ := (mem_idTexts splitLine wmdParseLine htype).mp htext
    obtain ⟨a, b, -, -, hsrc, hdst, hparse⟩ := edgeFiles_parses hsplit hwmd hread e he line hline
    refine ⟨e, he, line, hline, _, _, hparse, ?_⟩
    rcases hfield with ⟨rfl, hid⟩ | ⟨rfl, hid⟩
    · obtain rfl := toDigits_inj (hid.symm.trans hsrc)
      exact Or.inl rfl
    · obtain rfl := toDigits_inj (hid.symm.trans hdst)
      exact Or.inr rfl

theorem Readable.hasIds (hread : Readable stod d) (hsplit : SplitsFields splitLine)
    (hwmd : ParsesSales splitLine stod wmdParseLine) : d.HasIds := by
  have hlen {n m : ℕ} {columns : List ℕ} {Property : ℕ → List Char → Prop} {f : TextFile}
      (hf : IdRecords n columns (2 ^ 63 - 1) Property f) (hm : m < n) :
      ∀ line ∈ records f, m < (line.splitOn ',').length := fun line hline =>
    (hf line hline).length ▸ hm
  have hdigits (type : Types) (htype : type = .person ∨ type = .device) :
      ∀ text ∈ idTexts d type, ∀ c ∈ text, c.isDigit = true := by
    intro text htext c hc
    obtain ⟨id, -, rfl⟩ := exists_id hsplit hwmd hread htype htext
    exact Nat.isDigit_of_mem_toDigits (by decide) (by decide) hc
  exact ⟨hlen hread.commercial (by decide), hlen hread.cyber (by decide), hlen hread.social (by decide),
    hlen hread.uses (by decide), hdigits .person (Or.inl rfl), hdigits .device (Or.inr rfl)⟩

end Vertices

section Generated
variable {splitLine : List Char → Char → ℕ → List (List Char)} {stod : List Char → Option ℚ}
  {wmdParseLine : List Char → Option ParsedSale} {encode : List Char → UInt64} {str : ℚ → List Char}
  {o : Orders} {a : Arguments} {g : GeneratorDraws} {saleFile : List Char} {netflow : TextFile}
  {t : EdgeTexts}

def EdgeTexts.ofRecords (d : Records) : EdgeTexts :=
  ⟨d.commercial.text, d.cyber.text, d.social.text, d.uses.text⟩

/-- Inputs that the scripts can make a data set of: not too many persons and servers, topics that are
numbers, and a netflow file with numbers for every connection. -/
structure Suitable (a : Arguments) (g : GeneratorDraws) (saleFile : List Char) (netflow : TextFile) :
    Prop where
  commercial : a.commercial.numPersons ≤ 2 ^ 63 - 1
  cyber : a.cyber ≤ 2 ^ 63 - 1
  social : a.social ≤ 2 ^ 63 - 1
  uses : a.uses.1 ≤ 2 ^ 63 - 1 ∧ a.uses.2 ≤ 2 ^ 63 - 1
  topics : CopiedTopics (fun topic => (readOrZero stoull topic).isSome) saleFile
  properties : Netflow (fun _ f => (stoull f).isSome) netflow
  connections : ((List.range a.cyber).map fun s => (g.cyber s).peers.length).sum ≤
    (netflow.lines.drop 3).length

/-- The text of an amount is accepted, and can stand in a field. -/
def ReadsAmounts (stod : List Char → Option ℚ) (str : ℚ → List Char) : Prop :=
  ∀ amount, str amount ≠ [] ∧ (stod (str amount)).isSome ∧
    ',' ∉ str amount ∧ '\n' ∉ str amount ∧ '\r' ∉ str amount

theorem saleTexts_saleField : SaleTexts (SaleField stod) where
  kind := by simp [SaleField]
  date _ := by simp [SaleField]
  empty i hi := ⟨fun h => absurd hi (by omega), fun _ => rfl, fun _ => rfl⟩

theorem saleField_topic {topic : List Char} (h : (readOrZero stoull topic).isSome) :
    SaleField stod 3 topic := by
  simpa [SaleField] using h

theorem coffeeTexts_saleField (hstr : ReadsAmounts stod str) : CoffeeTexts (SaleField stod) str where
  topic := saleField_topic (by decide)
  amount amount := by
    obtain ⟨hne, hread, hplain⟩ := hstr amount
    refine ⟨?_, hplain⟩
    simpa [SaleField, readOrZero, hne] using hread

/-- The files with edges are read. -/
theorem generateEdges_readable (hstr : ReadsAmounts stod str) (h : Suitable a g saleFile netflow)
    (ht : generateEdges str o a g saleFile netflow.text = some t) :
    ∃ d : Records, t = .ofRecords d ∧ Readable stod d := by
  simp only [generateEdges, Option.bind_eq_bind, Option.bind_eq_some_iff, Option.pure_def,
    Option.some.injEq] at ht
  obtain ⟨commercial, hcommercial, cyber, hcyber, social, hsocial, uses, huses, rfl⟩ := ht
  have htopics : CopiedTopics (SaleField stod 3) saleFile := fun line hline hsale topic htopic hcoffee =>
    saleField_topic (h.topics line hline hsale topic htopic hcoffee)
  obtain ⟨f₁, -, -, rfl, -, -, -, h₁⟩ := commercial_file o.shuffleSales_perm saleTexts_saleField htopics
    (coffeeTexts_saleField hstr) h.commercial (by decide) hcommercial
  obtain ⟨f₂, rfl, h₂⟩ := cyber_file h.properties hcyber h.cyber h.connections
  obtain ⟨f₃, rfl, h₃⟩ := social_file hsocial h.social
  obtain ⟨f₄, rfl, h₄⟩ := uses_file huses h.uses.1 h.uses.2
  exact ⟨⟨f₁, f₂, f₃, f₄⟩, rfl, h₁, h₂, h₃, h₄⟩

/-- The nodes are extracted, and the parsers read a data set without loose ends. -/
theorem generated_closed (hsplit : SplitsFields splitLine)
    (hwmd : ParsesSales splitLine stod wmdParseLine)
    (hencode : ∀ token raw, stoull token = some raw → encode token = raw) (hstr : ReadsAmounts stod str)
    (h : Suitable a g saleFile netflow) (ht : generateEdges str o a g saleFile netflow.text = some t) :
    ∃ (d : Records) (nodes : TextFile), t = .ofRecords d ∧ generateNodes o t = some nodes.text ∧
      Closed splitLine wmdParseLine encode d nodes := by
  obtain ⟨d, rfl, hread⟩ := generateEdges_readable hstr h ht
  obtain ⟨nodes, hnodes, hperm⟩ := main_text o.iter_perm o.shuffleNodes_perm (hread.hasIds hsplit hwmd)
  exact ⟨d, nodes, rfl, hnodes, closed_of_perm hsplit hwmd hencode hread hperm⟩

end Generated

section Examples

/-- Whole amounts as `str` writes them and `stod` reads them. -/
def wholeStr (amount : ℚ) : List Char := Nat.toDigits 10 ⌊amount⌋₊ ++ ".0".toList

def wholeStod (token : List Char) : Option ℚ :=
  let ds := token.takeWhile Char.isDigit
  if ds = [] then none else some (Nat.ofDigitChars 10 ds 0 : ℕ)

theorem readsAmounts_whole : ReadsAmounts wholeStod wholeStr := by
  intro amount
  have hdigits : (wholeStr amount).takeWhile Char.isDigit = Nat.toDigits 10 ⌊amount⌋₊ := by
    rw [wholeStr, List.takeWhile_append_of_pos fun c hc =>
      Nat.isDigit_of_mem_toDigits (by decide) (by decide) hc]
    simp
  obtain ⟨hcomma, hnewline, hreturn⟩ := toDigits_plain ⌊amount⌋₊
  refine ⟨?_, ?_, ?_⟩
  · simp [wholeStr]
  · simp [wholeStod, hdigits, Nat.toDigits_ne_nil]
  · simp [wholeStr, hcomma, hnewline, hreturn]

theorem splitsFields_splitAll : SplitsFields splitAll := ⟨fun _ _ _ _ _ => rfl, fun _ _ _ _ _ => rfl⟩

/-- Other lines are no edges. -/
def wholeParseLine (line : List Char) : Option ParsedSale :=
  if field 0 line = "Sale".toList then parsedSale wholeStod (splitAll line ',' 8) else none

theorem parsesSales_whole : ParsesSales splitAll wholeStod wholeParseLine := fun _ h => if_pos h

def twoArguments : Arguments := ⟨smallParameters 0 2, 2, 2, (2, 2)⟩

def coin (k : ℕ) : UnitDraw := Commercial.share (k % 2) 2 (Nat.mod_lt k two_pos)

/-- Everybody has the other one as a friend, and every server sends something to the other one. -/
def twoDraws : GeneratorDraws where
  saleIds := [coin 0, coin 1]
  market := smallMarket 0 2 fun b => List.replicate 5 ⟨[1 - b], leastDraw⟩
  cyber s := ⟨1, [[coin s, coin (s + 1)]]⟩
  social p := ⟨1, [[coin (p + 1)]]⟩
  uses p := ⟨1, [coin p]⟩

def keptOrders : Orders := ⟨chosenOrder, id, id, id, fun _ => .refl _, fun _ => .refl _, fun _ => .refl _⟩

def twoSales : List Char :=
  "#type\nSale,7,9,1,,,81,1/1/2018,,\nSale,7,9,1,,,8486,1/1/2018,,2.5\n".toList

def twoNetflowLines : List (List Char) :=
  ["#delimiter".toList, "#columns".toList, "#types".toList, "5,6,1,0,6,80,81,1,2,3,4".toList,
    "7,6,2,0,6,80,81,1,2,3,4".toList]

theorem twoNetflowLines_notMem : ∀ l ∈ twoNetflowLines, '\n' ∉ l ∧ '\r' ∉ l := by decide

def twoNetflow : TextFile := ⟨twoNetflowLines, twoNetflowLines_notMem⟩

theorem two_suitable : Suitable twoArguments twoDraws twoSales twoNetflow where
  commercial := by decide
  cyber := by decide
  social := by decide
  uses := by decide
  topics := by
    unfold CopiedTopics
    decide
  properties := ⟨by decide, fun l hl => by
    rcases List.mem_cons.mp hl with rfl | hl
    · exact ⟨by decide, by decide⟩
    · obtain rfl := List.mem_singleton.mp hl
      exact ⟨by decide, by decide⟩⟩
  connections := by decide

theorem generated_closed_two :
    ∃ t, generateEdges wholeStr keptOrders twoArguments twoDraws twoSales twoNetflow.text = some t ∧
      ∃ (d : Records) (nodes : TextFile), t = .ofRecords d ∧ generateNodes keptOrders t = some nodes.text ∧
        Closed splitAll wholeParseLine encodeNumber d nodes := by
  obtain ⟨t, ht⟩ := Option.isSome_iff_exists.mp (show (generateEdges wholeStr keptOrders twoArguments twoDraws
    twoSales twoNetflow.text).isSome by decide +kernel)
  exact ⟨t, ht, generated_closed splitsFields_splitAll parsesSales_whole
    (fun _ _ h => by rw [encodeNumber, h, Option.getD_some]) readsAmounts_whole two_suitable ht⟩

end Examples
end Wf4
