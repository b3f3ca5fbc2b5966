import GraphLogSketch.Library.Csv
import GraphLogSketch.Scripts.CommercialMarket
import GraphLogSketch.Scripts.ExtractNodes
import Mathlib.Data.List.GetD

/-! The records of `social.py`, `uses.py` and `cyber.py`. The outcomes of the draws are given; `none` is a
run that needs more of them or leaves some over. -/
namespace RecordFiles
open Commercial ExtractNodes PartialMaps RejectionSampling TextLines

/-- Two ids, and what follows them. -/
def recordLine (a b : ℕ) (rest : List (List Char)) : List Char :=
  [','].intercalate (Nat.toDigits 10 a :: Nat.toDigits 10 b :: rest)

/-- So that not too many edges are generated. -/
def fewer (drawn : ℕ) : ℕ := if 20 < drawn then drawn / 10 else drawn

section Social

/-- The draws of a person: how many friends, and friends until one is another person. -/
structure SocialDraws where
  numFriends : ℕ
  friends : List (List UnitDraw)

def socialHeader : List (List Char) :=
  ["#delimieter: ,".toList, "#columns: person1,person2".toList, "#types: UINT,UINT".toList]

def friendLines (numPersons : ℕ) (d : SocialDraws) (p : ℕ) : Option (List (List Char)) :=
  if d.friends.length = fewer d.numFriends then
    d.friends.mapM fun draws =>
      (sample (· = p) (draws.map (person numPersons))).map fun friend => recordLine p friend []
  else none

def social (numPersons : ℕ) (draws : ℕ → SocialDraws) : Option (List Char) :=
  ((List.range numPersons).mapM fun p => friendLines numPersons (draws p) p).map fun ls =>
    unlines (socialHeader ++ ls.flatten)

end Social

section Uses

structure UsesDraws where
  numUsed : ℕ
  servers : List UnitDraw

def usesHeader : List (List Char) :=
  ["#delimieter: ,".toList, "#columns: person,server".toList, "#types: UINT,UINT".toList]

def usedLines (numServers : ℕ) (d : UsesDraws) (p : ℕ) : Option (List (List Char)) :=
  if d.servers.length = fewer d.numUsed then
    some (d.servers.map fun r => recordLine p (person numServers r) [])
  else none

def uses (numPersons numServers : ℕ) (draws : ℕ → UsesDraws) : Option (List Char) :=
  ((List.range numPersons).mapM fun p => usedLines numServers (draws p) p).map fun ls =>
    unlines (usesHeader ++ ls.flatten)

end Uses

section Cyber

/-- The draws of a server: how many connections, and servers until one is another server. -/
structure CyberDraws where
  numConnections : ℕ
  peers : List (List UnitDraw)

/-- The connections of a server, with the properties of the next lines of the netflow file. At the end of
that an empty line is read. -/
def connections (numServers s₁ : ℕ) : List (List UnitDraw) → List (List Char) →
    Option (List (List Char) × List (List Char))
  | [], netflow => some ([], netflow)
  | draws :: peers, netflow => do
    let s₂ ← sample (· = s₁) (draws.map (person numServers))
    let fields := (netflow.headD []).dropLast.splitOn ','
    let (ls, rest) ← connections numServers s₁ peers netflow.tail
    return (recordLine s₁ s₂ (fields.drop 2) :: ls, rest)

def allConnections (numServers : ℕ) (draws : ℕ → CyberDraws) :
    List ℕ → List (List Char) → Option (List (List Char))
  | [], _ => some []
  | s₁ :: servers, netflow =>
    if (draws s₁).peers.length = (draws s₁).numConnections then do
      let (ls, rest) ← connections numServers s₁ (draws s₁).peers netflow
      let more ← allConnections numServers draws servers rest
      return ls ++ more
    else none

/-- The first three lines are copied. -/
def cyber (numServers : ℕ) (draws : ℕ → CyberDraws) (cyberIn : List Char) : Option (List Char) :=
  let netflow := lines (translate cyberIn)
  (allConnections numServers draws (List.range numServers) (netflow.drop 3)).map fun ls =>
    (netflow.take 3).flatten ++ unlines ls

end Cyber

/-- Fields with ids below a bound in some of the columns, and properties in the others. The line of them
is no comment. -/
structure IsRow (numFields : ℕ) (columns : List ℕ) (bound : ℕ) (Property : ℕ → List Char → Prop)
    (fields : List (List Char)) : Prop where
  length : fields.length = numFields
  ids : ∀ i ∈ columns, ∃ id < bound, fields.getD i [] = Nat.toDigits 10 id
  property : ∀ i < numFields, i ∉ columns → Property i (fields.getD i [])
  plain : ∀ f ∈ fields, ',' ∉ f ∧ '\n' ∉ f ∧ '\r' ∉ f
  first : ∃ f fs, fields = f :: fs ∧ f.head? ≠ some '#'

/-- A file whose lines have such fields. -/
def IdRecords (numFields : ℕ) (columns : List ℕ) (bound : ℕ) (Property : ℕ → List Char → Prop)
    (f : TextFile) : Prop :=
  ∀ line ∈ records f, IsRow numFields columns bound Property (line.splitOn ',')

section Numbers
variable {c : Char}

theorem notMem_toDigits (hc : c.isDigit = false) (id : ℕ) : c ∉ Nat.toDigits 10 id :=
  fun hmem => absurd (hc.symm.trans (Nat.isDigit_of_mem_toDigits (by decide) (by decide) hmem))
    Bool.false_ne_true

theorem toDigits_plain (id : ℕ) :
    ',' ∉ Nat.toDigits 10 id ∧ '\n' ∉ Nat.toDigits 10 id ∧ '\r' ∉ Nat.toDigits 10 id :=
  ⟨notMem_toDigits (by decide) id, notMem_toDigits (by decide) id, notMem_toDigits (by decide) id⟩

theorem person_lt {n bound : ℕ} (hn : n ≤ bound) (hbound : 0 < bound) (r : UnitDraw) :
    person n r < bound := by
  rcases Nat.eq_zero_or_pos n with rfl | hpos
  · simpa [person] using hbound
  · have hn' : (0 : ℚ) < n := Nat.cast_pos.mpr hpos
    have hlt : person n r < n := by
      rw [person, Nat.floor_lt (mul_nonneg hn'.le r.2.1)]
      nlinarith [r.2.2]
    exact hlt.trans_le hn

end Numbers

section Rows
variable {numFields bound : ℕ} {columns : List ℕ} {Property : ℕ → List Char → Prop}
  {fields ls header : List (List Char)}

theorem IsRow.splitOn (h : IsRow numFields columns bound Property fields) :
    ([','].intercalate fields).splitOn ',' = fields := by
  obtain ⟨f, fs, hfields, -⟩ := h.first
  exact List.splitOn_intercalate ',' (fun g hg => (h.plain g hg).1) (by simp [hfields])

theorem IsRow.notMem (h : IsRow numFields columns bound Property fields) :
    '\n' ∉ [','].intercalate fields ∧ '\r' ∉ [','].intercalate fields := by
  have hline {c : Char} (hcomma : c ≠ ',') (hfields : ∀ f ∈ fields, c ∉ f) :
      c ∉ [','].intercalate fields := by
    intro hmem
    rcases Csv.mem_intercalate hmem with heq | ⟨f, hf, hmem⟩
    · exact hcomma heq
    · exact hfields f hf hmem
  exact ⟨hline (by decide) fun f hf => (h.plain f hf).2.1,
    hline (by decide) fun f hf => (h.plain f hf).2.2⟩

theorem IsRow.not_comment (h : IsRow numFields columns bound Property fields) :
    ([','].intercalate fields).head? ≠ some '#' := by
  obtain ⟨f, fs, rfl, hf⟩ := h.first
  cases f with
  | nil =>
    cases fs with
    | nil => simp
    | cons g fs =>
      rw [List.intercalate_cons_cons]
      simp
  | cons c cs =>
    cases fs with
    | nil => simpa using hf
    | cons g fs =>
      rw [List.intercalate_cons_cons]
      simpa using hf

/-- A line that is written from such fields. -/
def IsRecord (numFields : ℕ) (columns : List ℕ) (bound : ℕ) (Property : ℕ → List Char → Prop)
    (l : List Char) : Prop :=
  ∃ fields, l = [','].intercalate fields ∧ IsRow numFields columns bound Property fields

/-- Records behind comments are a file of them. -/
theorem exists_file (hheader : ∀ l ∈ header, '\n' ∉ l ∧ '\r' ∉ l ∧ l.head? = some '#')
    (hls : ∀ l ∈ ls, IsRecord numFields columns bound Property l) : ∃ f : TextFile,
      f.text = unlines (header ++ ls) ∧ records f = ls ∧
      IdRecords numFields columns bound Property f := by
  have hplain : ∀ l ∈ header ++ ls, '\n' ∉ l ∧ '\r' ∉ l := by
    intro l hl
    rcases List.mem_append.mp hl with hl | hl
    · obtain ⟨hnewline, hreturn, -⟩ := hheader l hl
      exact ⟨hnewline, hreturn⟩
    · obtain ⟨fields, rfl, hrow⟩ := hls l hl
      exact hrow.notMem
  have hcomments : header.filter (fun line => line.head? ≠ some '#') = [] := by
    simpa [List.filter_eq_nil_iff] using fun l hl => (hheader l hl).2.2
  have hkept : ls.filter (fun line => line.head? ≠ some '#') = ls := by
    rw [List.filter_eq_self]
    intro l hl
    obtain ⟨fields, rfl, hrow⟩ := hls l hl
    exact decide_eq_true hrow.not_comment
  have hrecords : records ⟨header ++ ls, hplain⟩ = ls := by
    rw [records, List.filter_append, hcomments, hkept, List.nil_append]
  refine ⟨⟨_, hplain⟩, rfl, hrecords, ?_⟩
  intro line hline
  obtain ⟨fields, rfl, hrow⟩ := hls line (hrecords ▸ hline)
  rwa [hrow.splitOn]

/-- Two ids in front of properties. -/
theorem isRow_cons_cons {a b : ℕ} {rest : List (List Char)} (ha : a < bound) (hb : b < bound)
    (hlen : rest.length + 2 = numFields) (hproperty : ∀ i < rest.length, Property (i + 2) (rest.getD i []))
    (hplain : ∀ f ∈ rest, ',' ∉ f ∧ '\n' ∉ f ∧ '\r' ∉ f) :
    IsRow numFields [0, 1] bound Property (Nat.toDigits 10 a :: Nat.toDigits 10 b :: rest) where
  length := hlen
  ids := by
    intro i hi
    simp only [List.mem_cons, List.not_mem_nil, or_false] at hi
    rcases hi with rfl | rfl
    · exact ⟨a, ha, rfl⟩
    · exact ⟨b, hb, rfl⟩
  property := by
    intro i hi hcolumns
    simp only [List.mem_cons, List.not_mem_nil, or_false, not_or] at hcolumns
    obtain ⟨k, rfl⟩ := Nat.exists_eq_add_of_le' (show 2 ≤ i by omega)
    exact hproperty k (by omega)
  plain := by
    intro f hf
    simp only [List.mem_cons] at hf
    rcases hf with rfl | rfl | hf
    · exact toDigits_plain a
    · exact toDigits_plain b
    · exact hplain f hf
  first := ⟨_, _, rfl, fun h => notMem_toDigits (by decide) a (List.mem_of_mem_head? h)⟩

end Rows

section Files
variable {numPersons numServers bound : ℕ} {text : List Char} {Property : ℕ → List Char → Prop}

theorem isRecord_two {a b : ℕ} (ha : a < bound) (hb : b < bound) :
    IsRecord 2 [0, 1] bound Property (recordLine a b []) :=
  ⟨_, rfl, isRow_cons_cons ha hb rfl (by simp) (by simp)⟩

theorem socialHeader_comments : ∀ l ∈ socialHeader, '\n' ∉ l ∧ '\r' ∉ l ∧ l.head? = some '#' := by decide

theorem usesHeader_comments : ∀ l ∈ usesHeader, '\n' ∉ l ∧ '\r' ∉ l ∧ l.head? = some '#' := by decide

theorem social_file {draws : ℕ → SocialDraws} (h : social numPersons draws = some text)
    (hn : numPersons ≤ bound) :
    ∃ f : TextFile, f.text = text ∧ IdRecords 2 [0, 1] bound Property f := by
  obtain ⟨ls, hls, rfl⟩ := Option.map_eq_some_iff.mp h
  have hrecords : ∀ l ∈ ls.flatten, IsRecord 2 [0, 1] bound Property l := by
    intro l hl
    obtain ⟨friends, hfriends, hl⟩ := List.mem_flatten.mp hl
    obtain ⟨p, hp, heq⟩ := mem_of_mapM hls hfriends
    have hp := (List.mem_range.mp hp).trans_le hn
    unfold friendLines at heq
    split_ifs at heq
    obtain ⟨choices, -, heq⟩ := mem_of_mapM heq hl
    obtain ⟨friend, hfriend, rfl⟩ := Option.map_eq_some_iff.mp heq
    obtain ⟨r, -, rfl⟩ := List.mem_map.mp (mem_of_sample hfriend)
    exact isRecord_two hp (person_lt hn (Nat.zero_lt_of_lt hp) r)
  obtain ⟨f, hf, -, hids⟩ := exists_file socialHeader_comments hrecords
  exact ⟨f, hf, hids⟩

theorem uses_file {draws : ℕ → UsesDraws} (h : uses numPersons numServers draws = some text)
    (hn : numPersons ≤ bound) (hm : numServers ≤ bound) :
    ∃ f : TextFile, f.text = text ∧ IdRecords 2 [0, 1] bound Property f := by
  obtain ⟨ls, hls, rfl⟩ := Option.map_eq_some_iff.mp h
  have hrecords : ∀ l ∈ ls.flatten, IsRecord 2 [0, 1] bound Property l := by
    intro l hl
    obtain ⟨servers, hservers, hl⟩ := List.mem_flatten.mp hl
    obtain ⟨p, hp, heq⟩ := mem_of_mapM hls hservers
    have hp := (List.mem_range.mp hp).trans_le hn
    unfold usedLines at heq
    split_ifs at heq
    obtain rfl := Option.some.inj heq
    obtain ⟨r, -, rfl⟩ := List.mem_map.mp hl
    exact isRecord_two hp (person_lt hm (Nat.zero_lt_of_lt hp) r)
  obtain ⟨f, hf, -, hids⟩ := exists_file usesHeader_comments hrecords
  exact ⟨f, hf, hids⟩

/-- A line whose properties a connection can have. -/
structure Usable (Property : ℕ → List Char → Prop) (l : List Char) : Prop where
  length : (l.splitOn ',').length = 11
  property : ∀ i < 9, Property (i + 2) (((l.splitOn ',').drop 2).getD i [])

/-- A file of netflow records: three lines of schema, and lines with 11 fields, two of them servers. -/
structure Netflow (Property : ℕ → List Char → Prop) (f : TextFile) : Prop where
  header : ∀ l ∈ f.lines.take 3, l.head? = some '#'
  usable : ∀ l ∈ f.lines.drop 3, Usable Property l

variable {draws : ℕ → CyberDraws} {s₁ s₂ : ℕ} {peers : List (List UnitDraw)}
  {rest : List (List Char)} {l : List Char} {ls out : List (List Char)}

theorem Usable.isRecord (h : Usable Property l) (hplain : '\n' ∉ l ∧ '\r' ∉ l) (hs₁ : s₁ < bound)
    (hs₂ : s₂ < bound) :
    IsRecord 11 [0, 1] bound Property (recordLine s₁ s₂ ((l.splitOn ',').drop 2)) := by
  have hlen : ((l.splitOn ',').drop 2).length = 9 := by rw [List.length_drop, h.length]
  refine ⟨_, rfl, isRow_cons_cons hs₁ hs₂ (by rw [hlen]) ?_ ?_⟩
  · intro i hi
    exact h.property i (hlen ▸ hi)
  · intro f hf
    obtain ⟨hcomma, hsub⟩ := mem_splitOn (List.mem_of_mem_drop hf)
    exact ⟨hcomma, fun hmem => hplain.1 (hsub hmem), fun hmem => hplain.2 (hsub hmem)⟩

theorem connections_records (h : connections numServers s₁ peers (ls.map (· ++ ['\n'])) = some (out, rest))
    (hs₁ : s₁ < bound) (hm : numServers ≤ bound)
    (hls : ∀ l ∈ ls, Usable Property l ∧ '\n' ∉ l ∧ '\r' ∉ l) (hlen : peers.length ≤ ls.length) :
    (∀ l ∈ out, IsRecord 11 [0, 1] bound Property l) ∧
      rest = (ls.drop peers.length).map (· ++ ['\n']) := by
  induction peers generalizing ls out with
  | nil =>
    obtain ⟨rfl, rfl⟩ := Prod.mk.inj (Option.some.inj h)
    exact ⟨by simp, by simp⟩
  | cons choices peers ih =>
    cases ls with
    | nil => exact absurd hlen (by simp)
    | cons l ls =>
      simp only [connections, List.map_cons, List.headD_cons, List.tail_cons, Option.bind_eq_bind,
        Option.bind_eq_some_iff, Option.pure_def, Option.some.injEq, Prod.mk.injEq] at h
      obtain ⟨s₂, hs₂, ⟨more, last⟩, hmore, rfl, rfl⟩ := h
      obtain ⟨⟨husable, hplain⟩, hls⟩ := List.forall_mem_cons.mp hls
      obtain ⟨hout, hrest⟩ := ih hmore hls (by simpa using hlen)
      obtain ⟨r, -, rfl⟩ := List.mem_map.mp (mem_of_sample hs₂)
      have hfirst := husable.isRecord hplain hs₁ (person_lt hm (Nat.zero_lt_of_lt hs₁) r)
      rw [List.dropLast_concat]
      exact ⟨List.forall_mem_cons.mpr ⟨hfirst, hout⟩, hrest⟩

theorem allConnections_records {servers : List ℕ}
    (h : allConnections numServers draws servers (ls.map (· ++ ['\n'])) = some out)
    (hservers : ∀ s ∈ servers, s < bound) (hm : numServers ≤ bound)
    (hls : ∀ l ∈ ls, Usable Property l ∧ '\n' ∉ l ∧ '\r' ∉ l)
    (hlen : (servers.map fun s => (draws s).peers.length).sum ≤ ls.length) :
    ∀ l ∈ out, IsRecord 11 [0, 1] bound Property l := by
  induction servers generalizing ls out with
  | nil =>
    obtain rfl := Option.some.inj h
    simp
  | cons s servers ih =>
    obtain ⟨hs, hservers⟩ := List.forall_mem_cons.mp hservers
    rw [List.map_cons, List.sum_cons] at hlen
    rw [allConnections] at h
    split_ifs at h
    simp only [Option.bind_eq_bind, Option.bind_eq_some_iff, Option.pure_def, Option.some.injEq] at h
    obtain ⟨⟨first, rest⟩, hfirst, more, hmore, rfl⟩ := h
    obtain ⟨hout, rfl⟩ := connections_records hfirst hs hm hls (by omega)
    have hmore := ih hmore hservers (fun l hl => hls l (List.mem_of_mem_drop hl)) (by
      rw [List.length_drop]
      omega)
    exact List.forall_mem_append.mpr ⟨hout, hmore⟩

/-- The netflow file has a line for each connection. -/
theorem cyber_file {f : TextFile} (hnetflow : Netflow Property f)
    (h : cyber numServers draws f.text = some text) (hm : numServers ≤ bound)
    (hlen : ((List.range numServers).map fun s => (draws s).peers.length).sum ≤
      (f.lines.drop 3).length) :
    ∃ f : TextFile, f.text = text ∧ IdRecords 11 [0, 1] bound Property f := by
  obtain ⟨out, hout, rfl⟩ := Option.map_eq_some_iff.mp h
  rw [f.translate_text, f.lines_text, ← List.map_drop] at hout
  have hheader : ∀ l ∈ f.lines.take 3, '\n' ∉ l ∧ '\r' ∉ l ∧ l.head? = some '#' := fun l hl =>
    have hline := f.notMem l (List.mem_of_mem_take hl)
    ⟨hline.1, hline.2, hnetflow.header l hl⟩
  have husable : ∀ l ∈ f.lines.drop 3, Usable Property l ∧ '\n' ∉ l ∧ '\r' ∉ l := fun l hl =>
    ⟨hnetflow.usable l hl, f.notMem l (List.mem_of_mem_drop hl)⟩
  have hrecords := allConnections_records hout (fun s hs => (List.mem_range.mp hs).trans_le hm) hm
    husable hlen
  obtain ⟨g, hg, -, hids⟩ := exists_file hheader hrecords
  refine ⟨g, ?_, hids⟩
  rw [hg, unlines_append, f.translate_text, f.lines_text, ← List.map_take, ← List.flatMap_def]
  rfl

end Files
end RecordFiles
