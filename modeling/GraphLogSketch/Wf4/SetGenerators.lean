import GraphLogSketch.Wf4.ReachableSetsResult

/-! The random number generators of the reachable sets: one for the root of a set, and one for each
traversal of it. -/
namespace Wf4
variable {H : ℕ}

/-- What a `pcg64` is constructed from. -/
structure Pcg64 where
  state : UInt64
  stream : UInt64
  deriving DecidableEq

/-- The generator of `GenerateSeedNodes`. -/
def seedGenerator (seed id host : UInt64) : Pcg64 := ⟨seed, (1 + host) * id⟩

/-- The generator of `ContinueRandomReversibleReachableSet`; the noise is the position of the set
among those its host works on. -/
def traversalGenerator (s : PartialReachableSet) (randomNoise : UInt64) : Pcg64 :=
  ⟨s.id, randomNoise⟩

namespace Generation
variable (p : Generation H)

/-- The sets on a host after the seed nodes are drawn, for any outcome of the draws. -/
def seedSets (roots : Fin H → UInt64 → GlobalNodeID) (h : Fin H) : List PartialReachableSet :=
  (p.slots h).map fun i => ⟨i, (hostId h).toUInt64, {roots h i}, {roots h i}⟩

/-- Each set with the generator its root is drawn from, on all hosts. -/
def seedGenerators (seed : UInt64) : List ((UInt64 × UInt64) × Pcg64) :=
  (List.finRange H).flatMap fun h => (p.slots h).map fun i =>
    (slotKey h i, seedGenerator seed i (hostId h).toUInt64)

/-- Each set with the generator of its traversal in the first epoch, on all hosts. -/
def firstEpochGenerators (roots : Fin H → UInt64 → GlobalNodeID) :
    List ((UInt64 × UInt64) × Pcg64) :=
  (List.finRange H).flatMap fun h => (p.seedSets roots h).zipIdx.map fun s =>
    (s.1.key, traversalGenerator s.1 (UInt64.ofNat s.2))

/-- No two sets replay the same random sequence. -/
structure SeparateGenerators (seed : UInt64) (roots : Fin H → UInt64 → GlobalNodeID) : Prop where
  seeds : ∀ x ∈ p.seedGenerators seed, ∀ y ∈ p.seedGenerators seed, x.1 ≠ y.1 → x.2 ≠ y.2
  firstEpoch : ∀ x ∈ p.firstEpochGenerators roots, ∀ y ∈ p.firstEpochGenerators roots,
    x.1 ≠ y.1 → x.2 ≠ y.2

section Sets
variable {p} {h : Fin H} {i : UInt64} {x : (UInt64 × UInt64) × Pcg64} {seed : UInt64}
  {roots : Fin H → UInt64 → GlobalNodeID}

theorem mem_slots : i ∈ p.slots h ↔ i.toNat < (p.hostSets h).toNat := by
  constructor
  · intro hi
    obtain ⟨k, hk, rfl⟩ := List.mem_map.mp hi
    have hk := List.mem_range.mp hk
    rwa [UInt64.toNat_ofNat_of_lt' (hk.trans (UInt64.toNat_lt _))]
  · intro hi
    exact List.mem_map.mpr ⟨i.toNat, List.mem_range.mpr hi, UInt64.ofNat_toNat⟩

theorem mem_seedGenerators : x ∈ p.seedGenerators seed ↔
    ∃ h, ∃ i ∈ p.slots h, x = (slotKey h i, seedGenerator seed i (hostId h).toUInt64) := by
  simp only [seedGenerators, List.mem_flatMap, List.mem_finRange, true_and, List.mem_map, eq_comm]

/-- In the first epoch a set is at the position of its index. -/
theorem seedSets_position {s : PartialReachableSet × ℕ}
    (hs : s ∈ (p.seedSets roots h).zipIdx) : s.1.key = slotKey h s.1.id ∧
      s.1.id ∈ p.slots h ∧ UInt64.ofNat s.2 = s.1.id := by
  have hget := List.mem_zipIdx_iff_getElem?.mp hs
  rw [seedSets, List.getElem?_map] at hget
  obtain ⟨i, hi, hset⟩ := Option.map_eq_some_iff.mp hget
  have hslot := List.mem_of_getElem? hi
  rw [slots, List.getElem?_map] at hi
  obtain ⟨k, hk, rfl⟩ := Option.map_eq_some_iff.mp hi
  obtain ⟨hlt, heq⟩ := List.getElem?_eq_some_iff.mp hk
  rw [List.getElem_range] at heq
  rw [← hset, heq]
  exact ⟨rfl, hslot, rfl⟩

theorem mem_firstEpochGenerators (hx : x ∈ p.firstEpochGenerators roots) :
    ∃ h, ∃ i ∈ p.slots h, x = (slotKey h i, ⟨i, i⟩) := by
  obtain ⟨h, -, hx⟩ := List.mem_flatMap.mp hx
  obtain ⟨s, hs, rfl⟩ := List.mem_map.mp hx
  obtain ⟨hkey, hid, hpos⟩ := seedSets_position hs
  exact ⟨h, s.1.id, hid, by rw [hkey, hpos]; rfl⟩

end Sets

section Owner
variable {p} {h : Fin H} {i : UInt64}

/-- With fewer sets than hosts, the last host has them all. -/
theorem owner_of_mem_slots (hcond : H = 1 ∨ p.globalSets.toNat < H) (hi : i ∈ p.slots h) :
    h.val = H - 1 ∧ H * i.toNat < 2 ^ 64 := by
  have hi := mem_slots.mp hi
  have hlt := i.toNat_lt
  have hh := h.isLt
  have hH := p.hosts_lt
  rw [p.hostSets_toNat] at hi
  rcases hcond with rfl | hfew
  · omega
  · rw [Nat.div_eq_of_lt hfew] at hi
    split_ifs at hi with hlast
    · refine ⟨hlast, ?_⟩
      have hprod : H * i.toNat ≤ H * H := Nat.mul_le_mul_left H (by omega)
      have hsquare : H * H < 2 ^ 32 * 2 ^ 32 := Nat.mul_lt_mul'' hH hH
      omega
    · exact absurd hi (Nat.not_lt_zero _)

theorem seedGenerator_stream (hH : H < 2 ^ 32) (hlast : h.val = H - 1)
    (hfits : H * i.toNat < 2 ^ 64) (seed : UInt64) :
    (seedGenerator seed i (hostId h).toUInt64).stream.toNat = H * i.toNat := by
  have hpos := h.isLt
  have hhost : (1 + (hostId h).toUInt64).toNat = H := by
    rw [UInt64.toNat_add, UInt32.toNat_toUInt64, hostId_toNat hH, hlast]
    show (1 + (H - 1)) % 2 ^ 64 = H
    omega
  rw [seedGenerator, UInt64.toNat_mul, hhost, Nat.mod_eq_of_lt hfits]

end Owner

section Separate
variable {p} {seed : UInt64} {roots : Fin H → UInt64 → GlobalNodeID}

/-- With a set for each host, every host has a first one. -/
theorem zero_mem_slots (hmany : H ≤ p.globalSets.toNat) (h : Fin H) : 0 ∈ p.slots h := by
  have hquot : 1 ≤ p.globalSets.toNat / H := (Nat.one_le_div_iff p.hosts_pos).mpr hmany
  rw [mem_slots, p.hostSets_toNat]
  split_ifs with hlast
  · have hmul := Nat.mul_div_le p.globalSets.toNat H
    obtain ⟨n, rfl⟩ := Nat.exists_eq_succ_of_ne_zero p.hosts_pos.ne'
    rw [Nat.succ_mul] at hmul
    show 0 < p.globalSets.toNat - n * _
    omega
  · exact hquot

/-- The first sets of two hosts have the same stream. -/
theorem SeparateGenerators.few (hsep : p.SeparateGenerators seed roots) :
    H = 1 ∨ p.globalSets.toNat < H := by
  have hpos := p.hosts_pos
  by_contra hcond
  obtain ⟨hhosts, hmany⟩ := not_or.mp hcond
  have hmem (h : Fin H) : (slotKey h 0, seedGenerator seed 0 (hostId h).toUInt64) ∈
      p.seedGenerators seed :=
    mem_seedGenerators.mpr ⟨h, 0, zero_mem_slots (not_lt.mp hmany) h, rfl⟩
  apply hsep.seeds _ (hmem ⟨0, hpos⟩) _ (hmem ⟨1, by omega⟩)
  · intro hkey
    have hhost := (slotKey_injective p.hosts_lt hkey).1
    exact absurd (Fin.mk.inj hhost) (by decide)
  · simp [seedGenerator]

/-- Sets of one host have different streams, and different states in the first epoch. -/
theorem separateGenerators_of_few (hcond : H = 1 ∨ p.globalSets.toNat < H) :
    p.SeparateGenerators seed roots := by
  have hsame {h k : Fin H} {i j : UInt64} (hi : i ∈ p.slots h) (hj : j ∈ p.slots k) : h = k :=
    Fin.ext ((owner_of_mem_slots hcond hi).1.trans (owner_of_mem_slots hcond hj).1.symm)
  constructor
  case seeds =>
    intro x hx y hy hkey hpair
    obtain ⟨h, i, hi, rfl⟩ := mem_seedGenerators.mp hx
    obtain ⟨k, j, hj, rfl⟩ := mem_seedGenerators.mp hy
    obtain ⟨hh, hfits⟩ := owner_of_mem_slots hcond hi
    obtain ⟨hk, hfits'⟩ := owner_of_mem_slots hcond hj
    have hstream := congrArg (fun g => g.stream.toNat) hpair
    dsimp only at hstream
    rw [seedGenerator_stream p.hosts_lt hh hfits, seedGenerator_stream p.hosts_lt hk hfits']
      at hstream
    have hid : i = j := UInt64.toNat_inj.mp (Nat.eq_of_mul_eq_mul_left p.hosts_pos hstream)
    exact hkey (by rw [hid, hsame hi hj])
  case firstEpoch =>
    intro x hx y hy hkey hpair
    obtain ⟨h, i, hi, rfl⟩ := mem_firstEpochGenerators hx
    obtain ⟨k, j, hj, rfl⟩ := mem_firstEpochGenerators hy
    have hid : i = j := congrArg Pcg64.state hpair
    exact hkey (by rw [hid, hsame hi hj])

end Separate

end Generation

/-- The generators are separate on one host, and when the last host owns all sets. -/
theorem separateGenerators_iff (p : Generation H) (seed : UInt64)
    (roots : Fin H → UInt64 → GlobalNodeID) :
    p.SeparateGenerators seed roots ↔ H = 1 ∨ p.globalSets.toNat < H :=
  ⟨Generation.SeparateGenerators.few, Generation.separateGenerators_of_few⟩

section Example

theorem sixSets_hosts_lt : 2 < 2 ^ 32 := by decide

theorem sixSets_node_bound : ∃ v, ¬ chainGraph.IsNode v := ⟨0, by decide⟩

/-- Three sets on each of two hosts. -/
def sixSets : Generation 2 := ⟨chainGraph, 6, Nat.two_pos, sixSets_hosts_lt, sixSets_node_bound⟩

theorem sixSets_masters (h : Fin 2) : 0 < (sixSets.graph.masters h).length := by
  fin_cases h <;> decide

/-- Every draw yields the first master of its host. -/
def firstMasters : sixSets.Seeds := fun h _ => ⟨0, sixSets_masters h⟩

/-- Not only the first sets of the hosts share a generator. -/
theorem separateGenerators_sixSets :
    (slotKey (0 : Fin 2) 2, ⟨7, 2⟩) ∈ sixSets.seedGenerators 7 ∧
      (slotKey (1 : Fin 2) 1, ⟨7, 2⟩) ∈ sixSets.seedGenerators 7 ∧
      (slotKey (0 : Fin 2) 1, ⟨1, 1⟩) ∈ sixSets.firstEpochGenerators firstMasters.root ∧
      (slotKey (1 : Fin 2) 1, ⟨1, 1⟩) ∈ sixSets.firstEpochGenerators firstMasters.root ∧
      ¬ sixSets.SeparateGenerators 7 firstMasters.root := by
  have hseed : (slotKey (0 : Fin 2) 2, ⟨7, 2⟩) ∈ sixSets.seedGenerators 7 := by decide
  have hseed' : (slotKey (1 : Fin 2) 1, ⟨7, 2⟩) ∈ sixSets.seedGenerators 7 := by decide
  refine ⟨hseed, hseed', by decide, by decide, fun h => ?_⟩
  exact h.seeds _ hseed _ hseed' (by decide) rfl

end Example

end Wf4
