import GraphLogSketch.Wf4.EdgeMessage
import GraphLogSketch.Wf4.ReachableSetWalk

/-! The messages of `ExchangePartialSets`: partial sets serialised one after another, and the loop
that reads them back. -/
namespace Wf4
open ByteWords

/-- The words of a set whose members and frontier are visited in these orders. -/
def PartialReachableSet.words (s : PartialReachableSet) (reached frontier : List GlobalNodeID) :
    List UInt64 :=
  s.id :: s.ownerHost :: UInt64.ofNat reached.length :: UInt64.ofNat frontier.length ::
    (reached ++ frontier)

/-- `serialize` may write these bytes. -/
inductive Serializes (s : PartialReachableSet) : List UInt8 → Prop
  | mk {reached frontier : List GlobalNodeID} (hr : Enumerates reached s.partialReachableSet)
      (hf : Enumerates frontier s.frontier) :
      Serializes s (encodeWords (s.words reached frontier))

/-- `deserialize`, and the bytes it leaves. -/
def deserialize (buffer : List UInt8) : Option (PartialReachableSet × List UInt8) := do
  let (id, buffer) ← takeWord buffer
  let (ownerHost, buffer) ← takeWord buffer
  let (reachableSize, buffer) ← takeWord buffer
  let (frontierSize, buffer) ← takeWord buffer
  let (reached, buffer) ← takeWords reachableSize.toNat buffer
  let (frontier, buffer) ← takeWords frontierSize.toNat buffer
  return (⟨id, ownerHost, reached.toFinset, frontier.toFinset⟩, buffer)

theorem takeWord_length {buffer rest : List UInt8} {w : UInt64}
    (h : takeWord buffer = some (w, rest)) : rest.length + 8 = buffer.length := by
  unfold takeWord at h
  split_ifs at h with hl
  obtain ⟨_, rfl⟩ : wordAt buffer 0 = w ∧ buffer.drop 8 = rest := by simpa using h
  rw [List.length_drop]
  omega

theorem takeWords_length {n : ℕ} {buffer rest : List UInt8} {ws : List UInt64}
    (h : takeWords n buffer = some (ws, rest)) : rest.length ≤ buffer.length := by
  induction n generalizing buffer ws with
  | zero =>
    obtain ⟨_, rfl⟩ : [] = ws ∧ buffer = rest := by simpa [takeWords] using h
    exact le_rfl
  | succ n ih =>
    simp only [takeWords, Option.bind_eq_bind, Option.pure_def, Option.bind_eq_some_iff,
      Option.some.injEq, Prod.mk.injEq] at h
    obtain ⟨⟨w, b₁⟩, h₁, ⟨vs, b₂⟩, h₂, _, rfl⟩ := h
    have hword : b₁.length + 8 = buffer.length := takeWord_length h₁
    have hwords : b₂.length ≤ b₁.length := ih h₂
    dsimp only
    omega

theorem deserialize_length {buffer rest : List UInt8} {s : PartialReachableSet}
    (h : deserialize buffer = some (s, rest)) : rest.length < buffer.length := by
  simp only [deserialize, Option.bind_eq_bind, Option.pure_def, Option.bind_eq_some_iff,
    Option.some.injEq, Prod.mk.injEq] at h
  obtain ⟨⟨_, b₁⟩, h₁, ⟨_, b₂⟩, h₂, ⟨_, b₃⟩, h₃, ⟨_, b₄⟩, h₄, ⟨_, b₅⟩, h₅, ⟨_, b₆⟩, h₆, _, rfl⟩ := h
  have hid : b₁.length + 8 = buffer.length := takeWord_length h₁
  have howner : b₂.length + 8 = b₁.length := takeWord_length h₂
  have hsize : b₃.length + 8 = b₂.length := takeWord_length h₃
  have hsize' : b₄.length + 8 = b₃.length := takeWord_length h₄
  have hset : b₅.length ≤ b₄.length := takeWords_length h₅
  have hfrontier : b₆.length ≤ b₅.length := takeWords_length h₆
  dsimp only
  omega

/-- `while (buf.size() > 0)`; `none` when a set is cut off. -/
def receiveSets (buffer : List UInt8) : Option (List PartialReachableSet) :=
  if buffer = [] then some []
  else
    match _hd : deserialize buffer with
    | none => none
    | some (s, rest) => (receiveSets rest).map (s :: ·)
termination_by buffer.length
decreasing_by exact deserialize_length _hd

/-- A message that is too short for a set is taken for the filler. -/
def incomingSets (message : List UInt8) : Option (List PartialReachableSet) :=
  if message.length < 16 then some [] else receiveSets message

/-- The sets may be sent as this message. -/
def SendsSets (sets : List PartialReachableSet) (message : List UInt8) : Prop :=
  ∃ buffers, List.Forall₂ Serializes sets buffers ∧
    message = if buffers.flatten = [] then fillerMessage else buffers.flatten

/-- The sizes fit into the words that announce them. -/
def PartialReachableSet.Fits (s : PartialReachableSet) : Prop :=
  s.partialReachableSet.card < 2 ^ 64 ∧ s.frontier.card < 2 ^ 64

theorem Enumerates.length {l : List GlobalNodeID} {s : Finset GlobalNodeID} (h : Enumerates l s) :
    l.length = s.card := by rw [← h.2, List.toFinset_card_of_nodup h.1]

theorem exists_enumerates (s : Finset GlobalNodeID) : ∃ l, Enumerates l s :=
  ⟨s.toList, s.nodup_toList, s.toList_toFinset⟩

section RoundTrip
variable {s : PartialReachableSet} {bytes : List UInt8}

theorem deserialize_serialized (hs : Serializes s bytes) (hfit : s.Fits) (rest : List UInt8) :
    deserialize (bytes ++ rest) = some (s, rest) := by
  obtain ⟨hr, hf⟩ := hs
  rename_i reached frontier
  have hreached : (UInt64.ofNat reached.length).toNat = reached.length := by
    rw [UInt64.toNat_ofNat', hr.length, Nat.mod_eq_of_lt hfit.1]
  have hfrontier : (UInt64.ofNat frontier.length).toNat = frontier.length := by
    rw [UInt64.toNat_ofNat', hf.length, Nat.mod_eq_of_lt hfit.2]
  simp only [deserialize, PartialReachableSet.words, encodeWords_cons, encodeWords_append,
    List.append_assoc, takeWord_wordBytes, Option.bind_eq_bind, Option.bind_some, hreached,
    hfrontier, takeWords_encodeWords, Option.pure_def, hr.2, hf.2]

theorem serialized_length (hs : Serializes s bytes) : 32 ≤ bytes.length := by
  obtain ⟨hr, hf⟩ := hs
  simp only [encodeWords_length, PartialReachableSet.words, List.length_cons]
  omega

theorem exists_serialized (s : PartialReachableSet) : ∃ bytes, Serializes s bytes := by
  obtain ⟨reached, hr⟩ := exists_enumerates s.partialReachableSet
  obtain ⟨frontier, hf⟩ := exists_enumerates s.frontier
  exact ⟨_, .mk hr hf⟩

variable {sets : List PartialReachableSet} {buffers : List (List UInt8)}

theorem receiveSets_flatten (h : List.Forall₂ Serializes sets buffers)
    (hfit : ∀ s ∈ sets, s.Fits) : receiveSets buffers.flatten = some sets := by
  induction h with
  | nil => rw [List.flatten_nil, receiveSets, if_pos rfl]
  | @cons s bytes sets buffers hs _ ih =>
    have hlen := serialized_length hs
    have hne : bytes ++ buffers.flatten ≠ [] := by
      intro hnil
      rw [(List.append_eq_nil_iff.mp hnil).1] at hlen
      exact absurd hlen (by decide)
    have hrest := ih fun t ht => hfit t (List.mem_cons_of_mem s ht)
    have hde := deserialize_serialized hs (hfit s List.mem_cons_self) buffers.flatten
    rw [List.flatten_cons, receiveSets, if_neg hne]
    split
    · simp_all
    · rename_i s' rest heq
      rw [hde] at heq
      obtain ⟨rfl, rfl⟩ : s = s' ∧ buffers.flatten = rest := by simpa using heq
      rw [hrest, Option.map_some]

/-- The receiver gets the sets that were sent, in their order, and takes no nonempty message for
the filler. -/
theorem incomingSets_sent {message : List UInt8} (h : SendsSets sets message)
    (hfit : ∀ s ∈ sets, s.Fits) : incomingSets message = some sets := by
  obtain ⟨buffers, hb, rfl⟩ := h
  cases hb with
  | nil => rfl
  | @cons s bytes sets buffers hs hrest =>
    have hlen := serialized_length hs
    have hlong : ¬ ((bytes :: buffers).flatten).length < 16 := by
      rw [List.flatten_cons, List.length_append]
      omega
    have hne : (bytes :: buffers).flatten ≠ [] := by
      intro hnil
      rw [hnil] at hlong
      exact hlong (by decide)
    rw [if_neg hne, incomingSets, if_neg hlong]
    exact receiveSets_flatten (.cons hs hrest) hfit

/-- The turns of the receiving loop: each takes a set off the front of what is unread. -/
inductive Reads : List UInt8 → List PartialReachableSet → List UInt8 → Prop
  | done (buffer : List UInt8) : Reads buffer [] buffer
  | set {s : PartialReachableSet} {sets : List PartialReachableSet}
      {buffer rest left : List UInt8} (h : deserialize buffer = some (s, rest))
      (hrest : Reads rest sets left) : Reads buffer (s :: sets) left

/-- What stands behind the sets stays unread. -/
theorem reads_flatten (h : List.Forall₂ Serializes sets buffers) (hfit : ∀ s ∈ sets, s.Fits)
    (left : List UInt8) : Reads (buffers.flatten ++ left) sets left := by
  induction h with
  | nil => exact .done left
  | @cons s bytes sets buffers hs _ ih =>
    have hrest := ih fun t ht => hfit t (List.mem_cons_of_mem s ht)
    have hde := deserialize_serialized hs (hfit s List.mem_cons_self) (buffers.flatten ++ left)
    rw [List.flatten_cons, List.append_assoc]
    exact .set hde hrest

theorem exists_message (sets : List PartialReachableSet) : ∃ message, SendsSets sets message := by
  have hall : ∃ buffers, List.Forall₂ Serializes sets buffers := by
    induction sets with
    | nil => exact ⟨[], .nil⟩
    | cons s sets ih =>
      obtain ⟨bytes, hs⟩ := exists_serialized s
      obtain ⟨buffers, hb⟩ := ih
      exact ⟨_, .cons hs hb⟩
  obtain ⟨buffers, hb⟩ := hall
  exact ⟨_, buffers, hb, rfl⟩

/-- Only the message of no sets is taken for the filler, and it is the filler. -/
theorem SendsSets.short_iff {message : List UInt8} (h : SendsSets sets message) :
    message.length < 16 ↔ sets = [] ∧ message = fillerMessage := by
  obtain ⟨buffers, hb, rfl⟩ := h
  cases hb with
  | nil => exact ⟨fun _ => ⟨rfl, rfl⟩, fun _ => by decide⟩
  | @cons s bytes sets buffers hs hrest =>
    have hlen := serialized_length hs
    have hlong : 32 ≤ ((bytes :: buffers).flatten).length := by
      rw [List.flatten_cons, List.length_append]
      omega
    have hne : (bytes :: buffers).flatten ≠ [] := by
      intro hnil
      rw [hnil] at hlong
      exact absurd hlong (by decide)
    rw [if_neg hne]
    constructor
    · intro hshort
      omega
    · rintro ⟨hnil, -⟩
      exact absurd hnil (List.cons_ne_nil _ _)

end RoundTrip

/-- A message gives the sets it was built from, in their order. Its loop takes one set a turn and
leaves no byte, and no message with a set in it is passed over as the filler. -/
theorem exchangePartialSets_received (sets : List PartialReachableSet)
    (hfit : ∀ s ∈ sets, s.Fits) (message : List UInt8) (h : SendsSets sets message) :
    incomingSets message = some sets ∧
      (message.length < 16 ↔ sets = [] ∧ message = fillerMessage) ∧
      (sets ≠ [] → Reads message sets []) := by
  refine ⟨incomingSets_sent h hfit, h.short_iff, fun hsets => ?_⟩
  obtain ⟨buffers, hb, rfl⟩ := h
  have hreads := reads_flatten hb hfit []
  rw [List.append_nil] at hreads
  have hne : buffers.flatten ≠ [] := by
    intro hnil
    rw [hnil] at hreads
    cases hreads with
    | done => exact hsets rfl
    | set hde _ => exact absurd (deserialize_length hde) (Nat.not_lt_zero _)
  rwa [if_neg hne]

/-- A set with two members and no frontier, and an empty one. -/
theorem exchangePartialSets_received_two :
    incomingSets (encodeWords [7, 1, 2, 0, 5, 7, 3, 0, 0, 1, 3]) =
      some [⟨7, 1, {5, 7}, ∅⟩, ⟨3, 0, ∅, {3}⟩] :=
  (exchangePartialSets_received [⟨7, 1, {5, 7}, ∅⟩, ⟨3, 0, ∅, {3}⟩]
    (List.forall_mem_cons.mpr ⟨⟨by decide, by decide⟩,
      List.forall_mem_singleton.mpr ⟨by decide, by decide⟩⟩) _
    ⟨_, .cons (.mk (show Enumerates [5, 7] _ from ⟨by decide, rfl⟩)
        (show Enumerates [] _ from ⟨List.nodup_nil, rfl⟩))
      (.cons (.mk (show Enumerates [] _ from ⟨List.nodup_nil, rfl⟩)
        (show Enumerates [3] _ from ⟨by decide, rfl⟩)) .nil), rfl⟩).1

end Wf4
