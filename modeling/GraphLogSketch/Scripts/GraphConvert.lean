import GraphLogSketch.Library.PositionalWrites

/-! The graph converters: words read from the input by position, and write records queued for a number
of writers, which get to the output file in any order. `none` is a panic. -/
namespace GraphConvert
open ByteWords PositionalWrites

def sizeofu64 : UInt64 := 8

/-- A short read and a negative offset are errors. -/
def readU64At (inputFile : List UInt8) (off : UInt64) : Option UInt64 :=
  if off.toNat < 2 ^ 63 ∧ off.toNat + 8 ≤ inputFile.length then some (wordAt inputFile off.toNat)
  else none

/-- `WriteAt` takes a signed offset and refuses a negative one. -/
def writeU64At (outputFile : List UInt8) (off val : UInt64) : Option (List UInt8) :=
  if off.toNat < 2 ^ 63 then some (pwrite outputFile (wordWrite off.toNat val)) else none

structure U64WriteRecord where
  pos : UInt64
  val : UInt64
  deriving DecidableEq, Repr

/-- The queued records in the order in which the writers get to the file. -/
def drain (order : List U64WriteRecord) (outputFile : List UInt8) : Option (List UInt8) :=
  order.foldlM (fun file vals => writeU64At file vals.pos vals.val) outputFile

/-- The loop of `sbel2gr2Convert` over the edges from number `i` on, with `n` to go. -/
def writeEdges (inputFile : List UInt8) (nodeBase edgeBase : UInt64) :
    ℕ → UInt64 → UInt64 → Option (List U64WriteRecord)
  | 0, _, _ => some []
  | n + 1, i, lastSrc => do
      let tempSrc ← readU64At inputFile (i * 2 * sizeofu64)
      let node := if tempSrc ≠ lastSrc then [⟨nodeBase + i * sizeofu64, i⟩] else []
      let dst ← readU64At inputFile (i * 2 * sizeofu64 + sizeofu64)
      let rest ← writeEdges inputFile nodeBase edgeBase n (i + 1) tempSrc
      return node ++ ⟨edgeBase + i * sizeofu64, dst⟩ :: rest

/-- The records `sbel2gr2Convert` queues. -/
def sbel2gr2Records (inputFile : List UInt8) : Option (List U64WriteRecord) := do
  let sz := UInt64.ofNat inputFile.length
  let sz := sz - sz % sizeofu64
  let numNodes ← readU64At inputFile (sz - 2 * sizeofu64)
  let numNodes := numNodes + 1
  let numEdges := sz / (2 * sizeofu64)
  let nodeBase := 4 * sizeofu64
  let edgeBase := nodeBase + sizeofu64 * numNodes
  let edges ← writeEdges inputFile nodeBase edgeBase numEdges.toNat 0 0
  return [⟨0, 2⟩, ⟨sizeofu64, 0⟩, ⟨2 * sizeofu64, numNodes⟩, ⟨3 * sizeofu64, numEdges⟩] ++ edges

/-- The converter on an initially empty output file; `reorder` is what the writers make of the queue. -/
def sbel2gr2Convert (reorder : List U64WriteRecord → List U64WriteRecord)
    (inputFile : List UInt8) : Option (List UInt8) := do
  drain (reorder (← sbel2gr2Records inputFile)) []

/-- A binary edge list: the source and the destination of each edge. -/
def edgeList (es : List (UInt64 × UInt64)) : List UInt8 :=
  encodeWords (es.flatMap fun e => [e.1, e.2])

def SortedBySource (es : List (UInt64 × UInt64)) : Prop := es.Pairwise fun a b => a.1 ≤ b.1

/-- One more than the last source. -/
def numNodes (es : List (UInt64 × UInt64)) : ℕ := (es.getLastD (0, 0)).1.toNat + 1

/-- The index of a node: the edges up to and with its own. -/
def indexOf (es : List (UInt64 × UInt64)) (v : ℕ) : ℕ := es.countP fun e => e.1.toNat ≤ v

/-- The words of a version-2 `.gr` file without edge data. -/
def grWords (es : List (UInt64 × UInt64)) : List UInt64 :=
  [2, 0, UInt64.ofNat (numNodes es), UInt64.ofNat es.length] ++
    (List.range (numNodes es)).map (fun v => UInt64.ofNat (indexOf es v)) ++ es.map Prod.snd

/-- The file starts with the words of the graph's `.gr` file. -/
def HoldsGraph (es : List (UInt64 × UInt64)) (file : List UInt8) : Prop :=
  encodeWords (grWords es) <+: file

instance (es : List (UInt64 × UInt64)) (file : List UInt8) : Decidable (HoldsGraph es file) := by
  unfold HoldsGraph
  infer_instance

variable {inputFile file outputFile : List UInt8} {order rs : List U64WriteRecord}
  {es : List (UInt64 × UInt64)}

def U64WriteRecord.write (r : U64WriteRecord) : Write := wordWrite r.pos.toNat r.val

/-- Writers that do not panic make the queued writes. -/
theorem drain_eq (h : drain order file = some outputFile) :
    (∀ r ∈ order, r.pos.toNat < 2 ^ 63) ∧
      outputFile = apply (order.map U64WriteRecord.write) file := by
  induction order generalizing file with
  | nil =>
    have heq : file = outputFile := by simpa [drain] using h
    exact ⟨fun r hr => absurd hr List.not_mem_nil, heq.symm⟩
  | cons r order ih =>
    rw [drain, List.foldlM_cons] at h
    obtain ⟨middle, hfirst, hrest⟩ := Option.bind_eq_some_iff.mp h
    rw [writeU64At] at hfirst
    split_ifs at hfirst with hpos
    obtain ⟨hall, heq⟩ := ih hrest
    rw [heq, ← Option.some.inj hfirst]
    refine ⟨fun r' hr' => ?_, rfl⟩
    rcases List.mem_cons.mp hr' with rfl | hr'
    · exact hpos
    · exact hall r' hr'

/-- What the loop queues for edge number `j`. -/
inductive EdgeRecord (nodeBase edgeBase : UInt64) (j : ℕ) : U64WriteRecord → Prop
  | node : EdgeRecord nodeBase edgeBase j ⟨nodeBase + UInt64.ofNat j * 8, UInt64.ofNat j⟩
  | edge (dst : UInt64) : EdgeRecord nodeBase edgeBase j ⟨edgeBase + UInt64.ofNat j * 8, dst⟩

theorem writeEdges_records {nodeBase edgeBase : UInt64} {n i : ℕ} {lastSrc : UInt64}
    (h : writeEdges inputFile nodeBase edgeBase n (UInt64.ofNat i) lastSrc = some rs)
    {r : U64WriteRecord} (hr : r ∈ rs) :
    ∃ j, i ≤ j ∧ j < i + n ∧ EdgeRecord nodeBase edgeBase j r := by
  induction n generalizing i lastSrc rs with
  | zero =>
    rw [← Option.some.inj h] at hr
    exact absurd hr List.not_mem_nil
  | succ n ih =>
    obtain ⟨tempSrc, -, h⟩ := Option.bind_eq_some_iff.mp h
    obtain ⟨dst, -, h⟩ := Option.bind_eq_some_iff.mp h
    obtain ⟨rest, hrest, h⟩ := Option.bind_eq_some_iff.mp h
    rw [← Option.some.inj h] at hr
    rcases List.mem_append.mp hr with hnode | hedge
    · split_ifs at hnode with hsrc
      · rw [List.mem_singleton.mp hnode]
        exact ⟨i, le_rfl, by omega, .node⟩
      · exact absurd hnode List.not_mem_nil
    · rcases List.mem_cons.mp hedge with rfl | hmem
      · exact ⟨i, le_rfl, by omega, .edge dst⟩
      · have hnext : UInt64.ofNat i + 1 = UInt64.ofNat (i + 1) := by simp
        rw [hnext] at hrest
        obtain ⟨j, hij, hj, hrec⟩ := ih hrest hmem
        exact ⟨j, by omega, by omega, hrec⟩

@[simp] theorem edgeList_length (es : List (UInt64 × UInt64)) :
    (edgeList es).length = 16 * es.length := by
  rw [edgeList, encodeWords_length, List.length_flatMap]
  simp
  ring

section Size
variable {n : ℕ}

/-- The whole words of a file, and its whole records. -/
theorem wholeSize_toNat (hsize : n < 2 ^ 63) :
    (UInt64.ofNat n - UInt64.ofNat n % sizeofu64).toNat = n / 8 * 8 ∧
      (UInt64.ofNat n - UInt64.ofNat n % sizeofu64) / (2 * sizeofu64) = UInt64.ofNat (n / 16) := by
  have hn : (UInt64.ofNat n).toNat = n :=
    UInt64.toNat_ofNat_of_lt' (by show n < 2 ^ 64; omega)
  have hmod : (UInt64.ofNat n % sizeofu64).toNat = n % 8 := by
    rw [UInt64.toNat_mod, hn]
    rfl
  have hsz : (UInt64.ofNat n - UInt64.ofNat n % sizeofu64).toNat = n / 8 * 8 := by
    rw [UInt64.toNat_sub_of_le]
    · rw [hn, hmod]
      omega
    · rw [UInt64.le_iff_toNat_le, hn, hmod]
      exact Nat.mod_le n 8
  refine ⟨hsz, ?_⟩
  rw [← UInt64.toNat_inj, UInt64.toNat_div, hsz,
    UInt64.toNat_ofNat_of_lt' (by show n / 16 < 2 ^ 64; omega)]
  show n / 8 * 8 / 16 = n / 16
  omega

/-- The size of an edge list has no incomplete word. -/
theorem edgeListSize_whole (hsize : 16 * n < 2 ^ 63) :
    UInt64.ofNat (16 * n) - UInt64.ofNat (16 * n) % sizeofu64 = UInt64.ofNat (16 * n) := by
  have heven : UInt64.ofNat (16 * n) % sizeofu64 = 0 := by
    rw [← UInt64.toNat_inj, UInt64.toNat_mod,
      UInt64.toNat_ofNat_of_lt' (by show 16 * n < 2 ^ 64; omega)]
    show 16 * n % 8 = 0
    omega
  rw [heven, UInt64.sub_zero]

theorem edgeListSize_div (hsize : 16 * n < 2 ^ 63) :
    UInt64.ofNat (16 * n) / (2 * sizeofu64) = UInt64.ofNat n := by
  rw [← UInt64.toNat_inj, UInt64.toNat_div,
    UInt64.toNat_ofNat_of_lt' (by show 16 * n < 2 ^ 64; omega),
    UInt64.toNat_ofNat_of_lt' (by show n < 2 ^ 64; omega)]
  show 16 * n / 16 = n
  omega

end Size

/-- The last source of an edge list is the second to last word. -/
theorem readU64At_last (hne : es ≠ []) (hsize : 16 * es.length < 2 ^ 63) {off : UInt64}
    (hoff : off.toNat + 16 = 16 * es.length) :
    readU64At (edgeList es) off = some (es.getLastD (0, 0)).1 := by
  have hlen := edgeList_length es
  rw [readU64At, if_pos ⟨by omega, by omega⟩]
  obtain ⟨init, e, rfl⟩ := List.eq_nil_or_concat es |>.resolve_left hne
  have hwords : edgeList (init.concat e) =
      encodeWords ((init.flatMap fun e => [e.1, e.2]) ++ [e.1, e.2]) := by
    simp [edgeList]
  have hinit : off.toNat = 8 * (init.flatMap fun e => [e.1, e.2]).length + 0 := by
    have hlen := edgeList_length init
    rw [edgeList, encodeWords_length] at hlen
    simp at hoff
    omega
  rw [hwords, hinit, wordAt_encodeWords_append, encodeWords_cons, wordAt_wordBytes]
  simp

/-- The header, and what the loop queues for each edge. -/
theorem sbel2gr2Records_edges (hne : es ≠ []) (hsize : 16 * es.length < 2 ^ 63)
    (h : sbel2gr2Records (edgeList es) = some rs) : ∃ edges,
      writeEdges (edgeList es) 32 (32 + 8 * UInt64.ofNat (numNodes es)) es.length 0 0 = some edges ∧
      rs = [⟨0, 2⟩, ⟨8, 0⟩, ⟨16, UInt64.ofNat (numNodes es)⟩, ⟨24, UInt64.ofNat es.length⟩] ++
        edges := by
  have hpos := List.length_pos_of_ne_nil hne
  have hsz : (UInt64.ofNat (16 * es.length)).toNat = 16 * es.length := by simp; omega
  have hoff : (UInt64.ofNat (16 * es.length) - 2 * sizeofu64).toNat + 16 = 16 * es.length := by
    rw [UInt64.toNat_sub_of_le]
    · rw [hsz]
      show 16 * es.length - 16 + 16 = _
      omega
    · rw [UInt64.le_iff_toNat_le, hsz]
      show 16 ≤ _
      omega
  have hnodes : (es.getLastD (0, 0)).1 + 1 = UInt64.ofNat (numNodes es) := by
    simp [numNodes]
  have hcount : (UInt64.ofNat es.length).toNat = es.length := by simp; omega
  simp only [sbel2gr2Records, edgeList_length, edgeListSize_whole hsize,
    readU64At_last hne hsize hoff, edgeListSize_div hsize, hnodes, hcount, Option.bind_eq_bind,
    Option.bind_some] at h
  obtain ⟨edges, hloop, hrs⟩ := Option.bind_eq_some_iff.mp h
  exact ⟨edges, hloop, (Option.some.inj hrs).symm⟩

section NodeWord
variable {N M : ℕ}

/-- The word of the file that a record goes to. -/
def U64WriteRecord.word (r : U64WriteRecord) : ℕ := r.pos.toNat / 8

/-- As long as positions do not wrap, the word of the last node is written for edge number `N - 1`
only, and then with that number. -/
theorem record_last_node (hN : 0 < N) (hbound : 8 * (4 + N + M) < 2 ^ 64) {j : ℕ} (hj : j < M)
    {r : U64WriteRecord} (hr : EdgeRecord 32 (32 + 8 * UInt64.ofNat N) j r) :
    8 * r.word = r.pos.toNat ∧ (r.word = 3 + N → r.val = UInt64.ofNat (N - 1) ∧ N - 1 < M) := by
  cases hr with
  | node =>
    have hpos : (32 + UInt64.ofNat j * 8).toNat = 8 * (4 + j) := by
      simp
      omega
    have hword : (⟨32 + UInt64.ofNat j * 8, UInt64.ofNat j⟩ : U64WriteRecord).word = 4 + j := by
      show (32 + UInt64.ofNat j * 8).toNat / 8 = _
      omega
    rw [hword]
    refine ⟨hpos.symm, fun hk => ?_⟩
    have hj' : N - 1 = j := by omega
    rw [hj']
    exact ⟨rfl, hj⟩
  | edge dst =>
    have hpos : (32 + 8 * UInt64.ofNat N + UInt64.ofNat j * 8).toNat = 8 * (4 + N + j) := by
      simp
      omega
    have hword : (⟨32 + 8 * UInt64.ofNat N + UInt64.ofNat j * 8, dst⟩ : U64WriteRecord).word =
        4 + N + j := by
      show (32 + 8 * UInt64.ofNat N + UInt64.ofNat j * 8).toNat / 8 = _
      omega
    rw [hword]
    exact ⟨hpos.symm, fun hk => by omega⟩

/-- The header takes the first four words. -/
theorem header_word {numNodes numEdges : UInt64} {r : U64WriteRecord}
    (hr : r ∈ [⟨0, 2⟩, ⟨8, 0⟩, ⟨16, numNodes⟩, ⟨24, numEdges⟩]) :
    8 * r.word = r.pos.toNat ∧ r.word < 4 := by
  simp only [List.mem_cons, List.not_mem_nil, or_false] at hr
  rcases hr with rfl | rfl | rfl | rfl
  all_goals simp [U64WriteRecord.word]

/-- Signed offsets bound the size of the file. -/
theorem drained_length_le (hpos : ∀ r ∈ order, r.pos.toNat < 2 ^ 63) :
    (apply (order.map U64WriteRecord.write) []).length ≤ 2 ^ 63 + 8 := by
  apply apply_length_le
  · exact Nat.zero_le _
  · intro w hw
    obtain ⟨r, hr, rfl⟩ := List.mem_map.mp hw
    have hr := hpos r hr
    rw [U64WriteRecord.write, wordWrite_stop]
    omega

/-- Whatever the order of the writes, the word of the last node ends up as 0 or as a number below
the number of edges. -/
theorem wordAt_last_node (hM : 0 < M)
    (hrs : ∀ r ∈ order, 8 * r.word = r.pos.toNat ∧
      (r.word = 3 + N → r.val = UInt64.ofNat (N - 1) ∧ N - 1 < M)) :
    ∃ m < M, wordAt (apply (order.map U64WriteRecord.write) []) (8 * (3 + N)) = UInt64.ofNat m := by
  have hwrites : order.map U64WriteRecord.write =
      (order.map fun r => (r.word, r.val)).map fun r => wordWrite (8 * r.1) r.2 := by
    rw [List.map_map]
    apply List.map_congr_left
    intro r hr
    show wordWrite r.pos.toNat r.val = wordWrite (8 * r.word) r.val
    rw [(hrs r hr).1]
  rw [hwrites]
  by_cases hex : ∃ r ∈ order, r.word = 3 + N
  · obtain ⟨r, hr, hk⟩ := hex
    refine ⟨N - 1, ((hrs r hr).2 hk).2, wordAt_apply ?_ ?_ []⟩
    · intro w hw hwk
      obtain ⟨r', hr', rfl⟩ := List.mem_map.mp hw
      exact ((hrs r' hr').2 hwk).1
    · exact ⟨_, List.mem_map.mpr ⟨r, hr, rfl⟩, hk⟩
  · refine ⟨0, hM, ?_⟩
    rw [wordAt_apply_of_untouched]
    · simp [wordAt, natOf]
    · intro w hw hwk
      obtain ⟨r, hr, rfl⟩ := List.mem_map.mp hw
      exact hex ⟨r, hr, hwk⟩

end NodeWord

/-- In an encoded array with more bytes behind it the words are where they were. -/
theorem wordAt_of_agree {ws : List UInt64} {k : ℕ} {w : UInt64} (h : encodeWords ws <+: file)
    (hw : ws[k]? = some w) : wordAt file (8 * k) = w := by
  obtain ⟨rest, rfl⟩ := h
  refine (wordAt_congr fun j hj => ?_).trans (wordAt_encodeWords hw)
  have hk : k < ws.length := (List.getElem?_eq_some_iff.mp hw).1
  have hlen := encodeWords_length ws
  rw [List.getD_eq_getElem?_getD, List.getElem?_append_left (by omega), List.getD_eq_getElem?_getD]

/-- In a sorted list no source is beyond the last. -/
theorem indexOf_last (hne : es ≠ []) (hsorted : SortedBySource es) :
    indexOf es (numNodes es - 1) = es.length := by
  obtain ⟨init, e, rfl⟩ := List.eq_nil_or_concat es |>.resolve_left hne
  rw [List.concat_eq_append] at hsorted ⊢
  have hlast : numNodes (init ++ [e]) - 1 = e.1.toNat := by simp [numNodes]
  rw [hlast, indexOf, List.countP_eq_length]
  intro a ha
  apply decide_eq_true
  rcases List.mem_append.mp ha with ha | ha
  · exact UInt64.le_iff_toNat_le.mp
      ((List.pairwise_append.mp hsorted).2.2 a ha e (List.mem_singleton_self e))
  · rw [List.mem_singleton.mp ha]

theorem grWords_length (es : List (UInt64 × UInt64)) :
    (grWords es).length = 4 + numNodes es + es.length := by
  simp [grWords]
  ring

theorem grWords_last_node (hne : es ≠ []) (hsorted : SortedBySource es) :
    (grWords es)[3 + numNodes es]? = some (UInt64.ofNat es.length) := by
  have hN : 0 < numNodes es := Nat.succ_pos _
  rw [grWords, List.getElem?_append_left (by simp; omega), List.getElem?_append_right (by simp; omega),
    List.getElem?_map, List.getElem?_range (by simp; omega)]
  have hk : 3 + numNodes es - 4 = numNodes es - 1 := by omega
  simp [hk, indexOf_last hne hsorted]

/-- `sbel2gr2Convert` never writes the graph: the index of the last node should be the number of
edges, but at most a smaller number is ever written there. -/
theorem sbel2gr2Convert_wrong (es : List (UInt64 × UInt64)) (hne : es ≠ [])
    (hsorted : SortedBySource es) (hsize : 16 * es.length < 2 ^ 63)
    (reorder : List U64WriteRecord → List U64WriteRecord) (hperm : ∀ rs, (reorder rs).Perm rs) :
    ¬ ∃ file, sbel2gr2Convert reorder (edgeList es) = some file ∧ HoldsGraph es file := by
  rintro ⟨file, hrun, hgraph⟩
  obtain ⟨rs, hrs, hdrain⟩ := Option.bind_eq_some_iff.mp hrun
  obtain ⟨edges, hloop, hqueue⟩ := sbel2gr2Records_edges hne hsize hrs
  obtain ⟨hpos, rfl⟩ := drain_eq hdrain
  have hN : 0 < numNodes es := Nat.succ_pos _
  have hM := List.length_pos_of_ne_nil hne
  -- The file is too short for positions to wrap.
  have hbound : 8 * (4 + numNodes es + es.length) < 2 ^ 64 := by
    have hlen := hgraph.length_le
    rw [encodeWords_length, grWords_length] at hlen
    have hfile := drained_length_le hpos
    omega
  have hrecords : ∀ r ∈ reorder rs, 8 * r.word = r.pos.toNat ∧
      (r.word = 3 + numNodes es → r.val = UInt64.ofNat (numNodes es - 1) ∧
        numNodes es - 1 < es.length) := by
    intro r hr
    have hmem := (hperm rs).mem_iff.mp hr
    rw [hqueue] at hmem
    rcases List.mem_append.mp hmem with hhead | hedge
    · obtain ⟨hk, hlt⟩ := header_word hhead
      exact ⟨hk, fun heq => by omega⟩
    · obtain ⟨j, -, hj, hrec⟩ := writeEdges_records (i := 0) hloop hedge
      exact record_last_node hN hbound (by omega) hrec
  obtain ⟨m, hm, hword⟩ := wordAt_last_node hM hrecords
  rw [wordAt_of_agree hgraph (grWords_last_node hne hsorted)] at hword
  have hnat := congrArg UInt64.toNat hword
  simp at hnat
  omega

/-- One edge from node 0 to node 7: the index of node 0 is left a hole. -/
theorem sbel2gr2Convert_single :
    sbel2gr2Convert (fun rs => rs) (edgeList [(0, 7)]) = some (encodeWords [2, 0, 1, 1, 0, 7]) ∧
      ¬ HoldsGraph [(0, 7)] (encodeWords [2, 0, 1, 1, 0, 7]) := by
  decide

/-- Two nodes with an edge each, written in the opposite order. -/
theorem sbel2gr2Convert_two : ¬ ∃ file,
    sbel2gr2Convert List.reverse (edgeList [(0, 7), (1, 3)]) = some file ∧
      HoldsGraph [(0, 7), (1, 3)] file :=
  sbel2gr2Convert_wrong [(0, 7), (1, 3)] (by decide) (by unfold SortedBySource; decide) (by decide)
    List.reverse List.reverse_perm

end GraphConvert
