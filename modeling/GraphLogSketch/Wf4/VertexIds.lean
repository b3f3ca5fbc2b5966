import GraphLogSketch.Library.TextStreams
import GraphLogSketch.Wf4.Projection

/-! The graph ids that the parsers give to persons and devices. A device gets one in the upper half of the
range, a person the number in the file; large numbers in the files can end up as one id. -/
namespace Wf4
open TextStreams

/-- `std::stoull`; `none` is an exception. -/
def stoull (token : List Char) : Option UInt64 :=
  let rest := token.dropWhile isSpace
  let negative := rest.head? = some '-'
  let rest := if negative ∨ rest.head? = some '+' then rest.tail else rest
  let ds := rest.takeWhile Char.isDigit
  let n := Nat.ofDigitChars 10 ds 0
  if ds = [] ∨ 2 ^ 64 ≤ n then none
  else some (if negative then -UInt64.ofNat n else UInt64.ofNat n)

def halfMax : UInt64 := UInt64.ofNat (2 ^ 64 - 1) / 2

/-- The members that only a communication sets. -/
structure Communication where
  epochTime : UInt64
  duration : UInt64
  protocol : UInt64
  srcPort : UInt64
  dstPort : UInt64
  srcPackets : UInt64
  dstPackets : UInt64
  srcBytes : UInt64
  dstBytes : UInt64
  deriving DecidableEq

/-- What the constructor from a kind and tokens sets. -/
structure ParsedEdge where
  type : Types
  srcType : Types
  dstType : Types
  src : UInt64
  dst : UInt64
  communication : Option Communication
  deriving DecidableEq

def parsedCommunication (tokens : List (List Char)) : Option Communication := do
  let epochTime ← stoull (tokens.getD 2 [])
  let duration ← stoull (tokens.getD 3 [])
  let protocol ← stoull (tokens.getD 4 [])
  let srcPort ← stoull (tokens.getD 5 [])
  let dstPort ← stoull (tokens.getD 6 [])
  let srcPackets ← stoull (tokens.getD 7 [])
  let dstPackets ← stoull (tokens.getD 8 [])
  let srcBytes ← stoull (tokens.getD 9 [])
  let dstBytes ← stoull (tokens.getD 10 [])
  return ⟨epochTime, duration, protocol, srcPort, dstPort, srcPackets, dstPackets, srcBytes, dstBytes⟩

def parsedEdge (type : Types) (tokens : List (List Char)) : Option ParsedEdge := do
  let src ← stoull (tokens.getD 0 [])
  let dst ← stoull (tokens.getD 1 [])
  match type with
  | .uses => return ⟨type, .person, .device, src, halfMax + dst % halfMax, none⟩
  | .friend => return ⟨type, .person, .person, src, dst, none⟩
  | .communication => do
    let communication ← parsedCommunication tokens
    return ⟨type, .device, .device, halfMax + src % halfMax, halfMax + dst % halfMax, some communication⟩
  | _ => return ⟨type, .person, .person, src, dst, none⟩

section Parsers
variable (splitLine : List Char → Char → ℕ → List (List Char)) (encode : List Char → UInt64)

def cyberParseLine (line : List Char) : Option ParsedEdge :=
  parsedEdge .communication (splitLine line ',' 11)

def socialParseLine (line : List Char) : Option ParsedEdge :=
  parsedEdge .friend (splitLine line ',' 2)

def usesParseLine (line : List Char) : Option ParsedEdge :=
  parsedEdge .uses (splitLine line ',' 2)

def nodeParseLine (line : List Char) : FullNetworkNode :=
  let tokens := splitLine line ',' 7
  let uid := encode (tokens.getD 1 [])
  if tokens.getD 0 [] = ['D', 'e', 'v', 'i', 'c', 'e'] then
    let uid := halfMax + uid % halfMax
    ⟨uid, uid, 0, 0, 0, 0, .device⟩
  else ⟨uid, uid, 0, 0, 0, 0, .person⟩

/-- A line of a node file with a kind and a number that is accepted. -/
structure IsNodeLine (line : List Char) (kind : Types) (raw : UInt64) : Prop where
  kind : (if (splitLine line ',' 7).getD 0 [] = ['D', 'e', 'v', 'i', 'c', 'e'] then Types.device
    else .person) = kind
  raw : stoull ((splitLine line ',' 7).getD 1 []) = some raw

end Parsers

/-- Numbers that get one id: those of devices when they are congruent, and one of a person in the upper
half of the range when it is the id of the device. -/
def Merged : Types → UInt64 → Types → UInt64 → Prop
  | .device, raw, .device, raw' => raw.toNat % (2 ^ 63 - 1) = raw'.toNat % (2 ^ 63 - 1)
  | .person, raw, .device, raw' => raw.toNat = 2 ^ 63 - 1 + raw'.toNat % (2 ^ 63 - 1)
  | .device, raw, .person, raw' => raw'.toNat = 2 ^ 63 - 1 + raw.toNat % (2 ^ 63 - 1)
  | _, _, _, _ => False

theorem device_id_toNat (raw : UInt64) :
    (halfMax + raw % halfMax).toNat = 2 ^ 63 - 1 + raw.toNat % (2 ^ 63 - 1) := by
  have hmod := Nat.mod_lt raw.toNat (show 0 < 2 ^ 63 - 1 by decide)
  rw [UInt64.toNat_add, UInt64.toNat_mod]
  show (2 ^ 63 - 1 + raw.toNat % (2 ^ 63 - 1)) % 2 ^ 64 = _
  omega

section Ids
variable {splitLine : List Char → Char → ℕ → List (List Char)} {encode : List Char → UInt64}
  {line line' : List Char} {kind kind' : Types} {raw raw' : UInt64}

/-- A kind is one of the two that a node file can have. -/
theorem IsNodeLine.kind_eq (h : IsNodeLine splitLine line kind raw) :
    kind = .device ∨ kind = .person := by
  rw [← h.kind]
  split_ifs
  · exact Or.inl rfl
  · exact Or.inr rfl

/-- The id of a node. -/
theorem nodeParseLine_id (hencode : ∀ token raw, stoull token = some raw → encode token = raw)
    (h : IsNodeLine splitLine line kind raw) : (nodeParseLine splitLine encode line).id =
      if kind = .device then halfMax + raw % halfMax else raw := by
  have hraw := hencode _ _ h.raw
  rw [← h.kind]
  unfold nodeParseLine
  dsimp only
  rw [hraw]
  split_ifs <;> first | rfl | contradiction

/-- Different numbers below half of the range stay apart. -/
theorem Merged.not_small (h : Merged kind raw kind' raw') (hne : (kind, raw) ≠ (kind', raw')) :
    ¬ (raw < halfMax ∧ raw' < halfMax) := by
  have hhalf (n : UInt64) : n < halfMax ↔ n.toNat < 2 ^ 63 - 1 := UInt64.lt_iff_toNat_lt
  rw [hhalf, hhalf]
  rintro ⟨hraw, hraw'⟩
  unfold Merged at h
  split at h
  · rw [Nat.mod_eq_of_lt hraw, Nat.mod_eq_of_lt hraw', UInt64.toNat_inj] at h
    exact hne (h ▸ rfl)
  · omega
  · omega
  · exact h

/-- When two nodes get one id. -/
theorem node_ids_eq_iff (hencode : ∀ token raw, stoull token = some raw → encode token = raw)
    (h : IsNodeLine splitLine line kind raw) (h' : IsNodeLine splitLine line' kind' raw')
    (hne : (kind, raw) ≠ (kind', raw')) :
    (nodeParseLine splitLine encode line).id = (nodeParseLine splitLine encode line').id ↔
      Merged kind raw kind' raw' := by
  rw [nodeParseLine_id hencode h, nodeParseLine_id hencode h', ← UInt64.toNat_inj]
  rcases h.kind_eq with rfl | rfl <;> rcases h'.kind_eq with rfl | rfl
  · simp only [if_true, device_id_toNat, Merged]
    omega
  · simp only [if_true, reduceCtorEq, if_false, device_id_toNat, Merged]
    exact eq_comm
  · simp only [if_true, reduceCtorEq, if_false, device_id_toNat, Merged]
  · simp only [reduceCtorEq, if_false, UInt64.toNat_inj, Merged, iff_false]
    exact fun heq => hne (heq ▸ rfl)

theorem usesParseLine_ids {edge : ParsedEdge} (h : usesParseLine splitLine line = some edge) :
    ∃ src dst, stoull ((splitLine line ',' 2).getD 0 []) = some src ∧
      stoull ((splitLine line ',' 2).getD 1 []) = some dst ∧ edge.src = src ∧
      edge.dst = halfMax + dst % halfMax := by
  obtain ⟨src, hsrc, h⟩ := Option.bind_eq_some_iff.mp h
  obtain ⟨dst, hdst, h⟩ := Option.bind_eq_some_iff.mp h
  rw [← Option.some.inj h]
  exact ⟨src, dst, hsrc, hdst, rfl, rfl⟩

theorem cyberParseLine_ids {edge : ParsedEdge} (h : cyberParseLine splitLine line = some edge) :
    ∃ src dst, stoull ((splitLine line ',' 11).getD 0 []) = some src ∧
      stoull ((splitLine line ',' 11).getD 1 []) = some dst ∧
      edge.src = halfMax + src % halfMax ∧ edge.dst = halfMax + dst % halfMax := by
  obtain ⟨src, hsrc, h⟩ := Option.bind_eq_some_iff.mp h
  obtain ⟨dst, hdst, h⟩ := Option.bind_eq_some_iff.mp h
  obtain ⟨communication, -, h⟩ := Option.bind_eq_some_iff.mp h
  rw [← Option.some.inj h]
  exact ⟨src, dst, hsrc, hdst, rfl, rfl⟩

end Ids

/-- How the ids of the parsers fit together. -/
structure IdsAgree (splitLine : List Char → Char → ℕ → List (List Char))
    (encode : List Char → UInt64) : Prop where
  uses : ∀ line edge, usesParseLine splitLine line = some edge → ∀ node raw,
    IsNodeLine splitLine node .device raw →
    stoull ((splitLine line ',' 2).getD 1 []) = some raw →
    edge.dst = (nodeParseLine splitLine encode node).id
  cyber_src : ∀ line edge, cyberParseLine splitLine line = some edge → ∀ node raw,
    IsNodeLine splitLine node .device raw →
    stoull ((splitLine line ',' 11).getD 0 []) = some raw →
    edge.src = (nodeParseLine splitLine encode node).id
  cyber_dst : ∀ line edge, cyberParseLine splitLine line = some edge → ∀ node raw,
    IsNodeLine splitLine node .device raw →
    stoull ((splitLine line ',' 11).getD 1 []) = some raw →
    edge.dst = (nodeParseLine splitLine encode node).id
  merged : ∀ node node' kind raw kind' raw', IsNodeLine splitLine node kind raw →
    IsNodeLine splitLine node' kind' raw' → (kind, raw) ≠ (kind', raw') →
    ((nodeParseLine splitLine encode node).id = (nodeParseLine splitLine encode node').id ↔
      Merged kind raw kind' raw')
  small : ∀ kind raw kind' raw', (kind, raw) ≠ (kind', raw') → raw < halfMax → raw' < halfMax →
    ¬ Merged kind raw kind' raw'

/-- The device ids of edges and nodes agree, and two nodes get one id exactly when their numbers are
merged, for which one of them has to be in the upper half of the range. -/
theorem parsers_idsAgree (splitLine : List Char → Char → ℕ → List (List Char))
    (encode : List Char → UInt64)
    (hencode : ∀ token raw, stoull token = some raw → encode token = raw) :
    IdsAgree splitLine encode where
  uses line edge h node raw hnode hraw := by
    obtain ⟨-, dst, -, hdst, -, heq⟩ := usesParseLine_ids h
    obtain rfl := Option.some.inj (hdst.symm.trans hraw)
    rw [heq, nodeParseLine_id hencode hnode, if_pos rfl]
  cyber_src line edge h node raw hnode hraw := by
    obtain ⟨src, -, hsrc, -, heq, -⟩ := cyberParseLine_ids h
    obtain rfl := Option.some.inj (hsrc.symm.trans hraw)
    rw [heq, nodeParseLine_id hencode hnode, if_pos rfl]
  cyber_dst line edge h node raw hnode hraw := by
    obtain ⟨-, dst, -, hdst, -, heq⟩ := cyberParseLine_ids h
    obtain rfl := Option.some.inj (hdst.symm.trans hraw)
    rw [heq, nodeParseLine_id hencode hnode, if_pos rfl]
  merged _ _ _ _ _ _ h h' hne := node_ids_eq_iff hencode h h' hne
  small _ _ _ _ hne hraw hraw' hmerged := hmerged.not_small hne ⟨hraw, hraw'⟩

/-- Lines split at the character, as far as it goes. -/
def splitAll (line : List Char) (c : Char) (_ : ℕ) : List (List Char) := line.splitOn c

def encodeNumber (token : List Char) : UInt64 := (stoull token).getD 0

/-- Two devices and a person that become one vertex. -/
theorem parsers_merge :
    let device (raw : UInt64) :=
      ['D', 'e', 'v', 'i', 'c', 'e', ','] ++ digits raw ++ [',', ',', ',', ',', ',']
    let person (raw : UInt64) :=
      ['P', 'e', 'r', 's', 'o', 'n', ','] ++ digits raw ++ [',', ',', ',', ',', ',']
    IsNodeLine splitAll (device 0) .device 0 ∧
      IsNodeLine splitAll (device halfMax) .device halfMax ∧
      IsNodeLine splitAll (person halfMax) .person halfMax ∧ (0 : UInt64) ≠ halfMax ∧
      (nodeParseLine splitAll encodeNumber (device halfMax)).id =
        (nodeParseLine splitAll encodeNumber (device 0)).id ∧
      (nodeParseLine splitAll encodeNumber (person halfMax)).id =
        (nodeParseLine splitAll encodeNumber (device 0)).id := by
  exact ⟨⟨by decide, by decide⟩, ⟨by decide, by decide⟩, ⟨by decide, by decide⟩, by decide,
    by decide, by decide⟩

theorem parsers_idsAgree_splitAll : IdsAgree splitAll encodeNumber :=
  parsers_idsAgree splitAll encodeNumber fun token raw h => by rw [encodeNumber, h, Option.getD_some]

end Wf4
