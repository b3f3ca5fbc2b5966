import GraphLogSketch.Library.Binary64
import GraphLogSketch.Library.PartialMaps
import GraphLogSketch.Library.Words
import GraphLogSketch.Wf4.Graph

/-! The message that carries proposed trades between hosts: the word array `SerializeSet` writes
and the packed structures `IncomingEdges` reads. -/
namespace Wf4
open ByteWords PartialMaps

/-- A trade proposed by the buyer `src` to the seller `dst`. The weight is a binary64 pattern on
the wire and an exact number in the trading model. -/
structure ProposedEdge (W : Type) where
  src : GlobalNodeID
  dst : GlobalNodeID
  weight : W
  deriving DecidableEq

/-- `operator==` and `hash_value` look at the end points only. -/
def ProposedEdge.key {W : Type} (e : ProposedEdge W) : GlobalNodeID × GlobalNodeID := (e.src, e.dst)

/-- The hash set of proposed edges, in the order an iteration visits it. Its slots are records of
24 bytes in one array, whose size is bounded by the address space. -/
structure ProposedEdgeSet where
  edges : List (ProposedEdge UInt64)
  keys_nodup : (edges.map ProposedEdge.key).Nodup
  addressable : 24 * edges.length < 2 ^ 63

def ProposedEdgeSet.clear : ProposedEdgeSet := ⟨[], List.nodup_nil, by norm_num⟩

/-- The three words of an edge; the assignment to a `uint64_t` converts the weight. -/
def edgeWords (e : ProposedEdge UInt64) : Option (List UInt64) :=
  (Binary64.toUInt64 e.weight).map fun w => [e.src, e.dst, w]

def edgesWords : List (ProposedEdge UInt64) → Option (List UInt64)
  | [] => some []
  | e :: es => do
      let ws ← edgeWords e
      let rest ← edgesWords es
      return ws ++ rest

/-- The buffer and the emptied set; `none` where a conversion is undefined. -/
def serializeSet (s : ProposedEdgeSet) : Option (List UInt8 × ProposedEdgeSet) :=
  (edgesWords s.edges).map fun ws =>
    (encodeWords (UInt64.ofNat s.edges.length :: ws), ProposedEdgeSet.clear)

/-- The byte sent in place of an empty buffer. -/
def fillerMessage : List UInt8 := ['a'.toUInt8]

/-- A received buffer. The edge count is only set for a nonempty one; the edges are structures
overlaid on the bytes after it. -/
structure IncomingEdges where
  buffer : List UInt8
  empty : Bool
  numEdges : Option UInt64

def incomingEdges (buffer : List UInt8) : IncomingEdges :=
  if buffer.length < 16 then ⟨buffer, true, none⟩
  else ⟨buffer, false, some (wordAt buffer 0)⟩

/-- `edges[i]`: 24 bytes a record, packed, after the count. -/
def IncomingEdges.edge (r : IncomingEdges) (i : ℕ) : ProposedEdge UInt64 :=
  ⟨wordAt r.buffer (8 + 24 * i), wordAt r.buffer (8 + 24 * i + 8),
    wordAt r.buffer (8 + 24 * i + 16)⟩

/-- The edges a receiver goes through: none when the message is taken for empty. -/
def IncomingEdges.received (r : IncomingEdges) : List (ProposedEdge UInt64) :=
  if r.empty then [] else (List.range ((r.numEdges.getD 0).toNat)).map r.edge

/-- Sent and received again, the set is the same collection of edges, with the same count, and is
taken for empty only if it is; so is the filler. -/
def RoundTrips (s : ProposedEdgeSet) : Prop :=
  (incomingEdges fillerMessage).empty = true ∧
  ∃ buffer, serializeSet s = some (buffer, ProposedEdgeSet.clear) ∧
    ((incomingEdges buffer).empty = true ↔ s.edges = []) ∧
    (s.edges ≠ [] → (incomingEdges buffer).numEdges = some (UInt64.ofNat s.edges.length)) ∧
    (incomingEdges buffer).received.Perm s.edges

/-- What an edge turns into on the way. -/
def converted (e : ProposedEdge UInt64) : Option (ProposedEdge UInt64) :=
  (Binary64.toUInt64 e.weight).map fun w => { e with weight := w }

def recordWords (r : ProposedEdge UInt64) : List UInt64 := [r.src, r.dst, r.weight]

theorem edgesWords_eq (es : List (ProposedEdge UInt64)) :
    edgesWords es = (es.mapM converted).map (List.flatMap recordWords) := by
  induction es with
  | nil => rfl
  | cons e es ih =>
    rw [edgesWords, ih, edgeWords, List.mapM_cons, converted]
    cases Binary64.toUInt64 e.weight with
    | none => rfl
    | some w => cases es.mapM converted <;> simp [recordWords]

theorem serializeSet_eq_some_iff {s : ProposedEdgeSet} {buffer : List UInt8} :
    serializeSet s = some (buffer, ProposedEdgeSet.clear) ↔
      ∃ rs, s.edges.mapM converted = some rs ∧
        buffer = encodeWords (UInt64.ofNat s.edges.length :: rs.flatMap recordWords) := by
  simp only [serializeSet, edgesWords_eq, Option.map_map, Option.map_eq_some_iff,
    Function.comp_apply, Prod.mk.injEq, and_true]
  exact exists_congr fun rs => and_congr_right fun _ => eq_comm

theorem recordWords_length (rs : List (ProposedEdge UInt64)) :
    (rs.flatMap recordWords).length = 3 * rs.length := by
  induction rs with
  | nil => rfl
  | cons r rs ih =>
    simp only [List.flatMap_cons, List.length_append, ih, recordWords, List.length_cons,
      List.length_nil]
    ring

/-- Each record sits at its own stride of three words. -/
theorem recordWords_get {rs : List (ProposedEdge UInt64)} {i : ℕ} {r : ProposedEdge UInt64}
    (h : rs[i]? = some r) {j : ℕ} {w : UInt64} (hj : (recordWords r)[j]? = some w) :
    (rs.flatMap recordWords)[3 * i + j]? = some w := by
  induction rs generalizing i with
  | nil => simp at h
  | cons x rs ih =>
    rw [List.flatMap_cons]
    cases i with
    | zero =>
      have hx : x = r := by simpa using h
      have hl := (List.getElem?_eq_some_iff.mp hj).1
      rw [hx, Nat.mul_zero, Nat.zero_add, List.getElem?_append_left hl, hj]
    | succ i =>
      have hl : (recordWords x).length = 3 := rfl
      rw [List.getElem?_append_right (by omega), hl]
      convert ih (by simpa using h) using 2
      omega

/-- The packed overlay reads the records back as they were written. -/
theorem edge_encoded {n : UInt64} {rs : List (ProposedEdge UInt64)} {i : ℕ}
    {r : ProposedEdge UInt64} {empty : Bool} {count : Option UInt64} (h : rs[i]? = some r) :
    (IncomingEdges.mk (encodeWords (n :: rs.flatMap recordWords)) empty count).edge i = r := by
  have hw (j : ℕ) (w : UInt64) (hj : (recordWords r)[j]? = some w) :
      wordAt (encodeWords (n :: rs.flatMap recordWords)) (8 + 24 * i + 8 * j) = w := by
    have hoff : 8 + 24 * i + 8 * j = 8 * (3 * i + j + 1) := by ring
    rw [hoff]
    apply wordAt_encodeWords
    simpa using recordWords_get h hj
  have hs := hw 0 r.src rfl
  have hd := hw 1 r.dst rfl
  have hwt := hw 2 r.weight rfl
  simp only [Nat.mul_zero, Nat.add_zero] at hs
  simp only [IncomingEdges.edge, hs, hd, hwt]

theorem encoded_length (n : UInt64) (rs : List (ProposedEdge UInt64)) :
    (encodeWords (n :: rs.flatMap recordWords)).length = 8 + 24 * rs.length := by
  rw [encodeWords_length, List.length_cons, recordWords_length]
  ring

/-- The threshold of sixteen bytes separates the empty set from the others. -/
theorem incoming_empty_iff (n : UInt64) (rs : List (ProposedEdge UInt64)) :
    (incomingEdges (encodeWords (n :: rs.flatMap recordWords))).empty = true ↔ rs = [] := by
  rw [incomingEdges, encoded_length, ← List.length_eq_zero_iff]
  split_ifs with h
  · simp only [true_iff]
    omega
  · simp only [false_iff]
    omega

theorem received_encoded {rs : List (ProposedEdge UInt64)} (hn : rs.length < 2 ^ 64) :
    (incomingEdges (encodeWords (UInt64.ofNat rs.length :: rs.flatMap recordWords))).received =
      rs := by
  have hcount : (UInt64.ofNat rs.length).toNat = rs.length := by
    rw [UInt64.toNat_ofNat', Nat.mod_eq_of_lt hn]
  by_cases hr : rs = []
  · have he := (incoming_empty_iff (UInt64.ofNat rs.length) rs).mpr hr
    rw [IncomingEdges.received, if_pos he, hr]
  · have hpos : 0 < rs.length := List.length_pos_iff.mpr hr
    have hl := encoded_length (UInt64.ofNat rs.length) rs
    have hlong : ¬ (encodeWords (UInt64.ofNat rs.length :: rs.flatMap recordWords)).length < 16 := by
      omega
    have hhead : wordAt (encodeWords (UInt64.ofNat rs.length :: rs.flatMap recordWords)) 0 =
        UInt64.ofNat rs.length := by
      rw [encodeWords_cons, wordAt_wordBytes]
    rw [incomingEdges, if_neg hlong, IncomingEdges.received, hhead, Option.getD_some, hcount]
    apply List.ext_getElem?
    intro i
    rcases Nat.lt_or_ge i rs.length with hi | hi
    · have hri : rs[i]? = some rs[i] := List.getElem?_eq_getElem hi
      rw [if_neg Bool.false_ne_true, List.getElem?_map, List.getElem?_range hi, Option.map_some,
        edge_encoded hri, hri]
    · simp [hi]

theorem converted_eq_self_iff (e : ProposedEdge UInt64) : converted e = some e ↔ e.weight = 0 := by
  rw [← Binary64.toUInt64_eq_self_iff, converted]
  cases hw : Binary64.toUInt64 e.weight with
  | none => simp
  | some w =>
    obtain ⟨src, dst, weight⟩ := e
    simp

theorem converted_key {e r : ProposedEdge UInt64} (h : converted e = some r) : r.key = e.key := by
  obtain ⟨w, _, rfl⟩ := Option.map_eq_some_iff.mp h
  rfl

/-- Keys are distinct, so an edge can only come back as itself. -/
theorem converted_fixed_of_perm {s : ProposedEdgeSet} {rs : List (ProposedEdge UInt64)}
    (h : s.edges.mapM converted = some rs) (hp : rs.Perm s.edges) :
    ∀ e ∈ s.edges, converted e = some e := by
  intro e he
  obtain ⟨r, hr, her⟩ := exists_of_mapM h he
  have hmem : r ∈ s.edges := hp.subset hr
  have heq : r = e := List.inj_on_of_nodup_map s.keys_nodup hmem he (converted_key her)
  rwa [heq] at her

theorem ProposedEdgeSet.length_lt (s : ProposedEdgeSet) : s.edges.length < 2 ^ 64 := by
  have := s.addressable
  omega

theorem RoundTrips.weight_zero {s : ProposedEdgeSet} (h : RoundTrips s) :
    ∀ e ∈ s.edges, e.weight = 0 := by
  obtain ⟨_, buffer, hs, _, _, hperm⟩ := h
  obtain ⟨rs, hrs, rfl⟩ := serializeSet_eq_some_iff.mp hs
  have hl := length_of_mapM hrs
  rw [← hl, received_encoded (hl ▸ s.length_lt)] at hperm
  intro e he
  exact (converted_eq_self_iff e).mp (converted_fixed_of_perm hrs hperm e he)

theorem roundTrips_of_weight_zero {s : ProposedEdgeSet} (h : ∀ e ∈ s.edges, e.weight = 0) :
    RoundTrips s := by
  have hfix := mapM_eq_some fun e he => (converted_eq_self_iff e).mpr (h e he)
  rw [List.map_id'] at hfix
  refine ⟨rfl, _, serializeSet_eq_some_iff.mpr ⟨s.edges, hfix, rfl⟩, incoming_empty_iff _ _,
    fun hne => ?_, ?_⟩
  · have hpos : 0 < s.edges.length := List.length_pos_iff.mpr hne
    have hl := encoded_length (UInt64.ofNat s.edges.length) s.edges
    rw [incomingEdges, if_neg (by omega), encodeWords_cons, wordAt_wordBytes]
  · rw [received_encoded s.length_lt]

/-- The set survives the exchange exactly when every weight is positive zero: any other pattern
is converted to an integer by the sender and read back as a pattern. -/
theorem roundTrips_iff (s : ProposedEdgeSet) : RoundTrips s ↔ ∀ e ∈ s.edges, e.weight = 0 :=
  ⟨RoundTrips.weight_zero, roundTrips_of_weight_zero⟩

/-- A single trade of weight `3/2`, whose pattern the receiver finds replaced by that of the
integer one. -/
def threeHalvesSet : ProposedEdgeSet :=
  ⟨[⟨1, 2, 0x3FF8000000000000⟩], List.nodup_singleton _, by norm_num⟩

theorem threeHalves_not_roundTrips : ¬ RoundTrips threeHalvesSet := fun h =>
  absurd (h.weight_zero _ (List.mem_singleton_self _)) (by decide)

end Wf4
