import GraphLogSketch.Library.Tiling
import Mathlib.Data.UInt
import Mathlib.Dynamics.PeriodicPts.Defs
import Mathlib.Tactic

/-! The Kronecker generator. The ranks split the edge indices among them, and turn each index into an
edge id and that into an edge; a rank has one random generator, which is moved to where an id needs
it. -/

/-! Iterates of `x ↦ a * x + c` by doubling, and when they come back to where they started. -/
namespace AffineIterates
variable {R : Type*} [CommRing R]

end AffineIterates

namespace Scripts.InputGen
open Tiling
open scoped UInt64.CommRing

/-- `pcg.PCG32` -/
structure Pcg32 (P : Type) where
  advance : P → UInt64 → P
  retreat : P → UInt64 → P
  random : P → UInt32 × P

/-- `shuffle.RandomIndex` and `shuffle.GetIndex` for a Feistel network; `none` is an error. -/
structure Feistel where
  randomIndex : UInt64 → UInt64 → Option UInt64
  getIndex : UInt64 → UInt64 → Option UInt64

structure PcgRec (P : Type) where
  p : P
  loc : UInt64

structure KronInput where
  scale : UInt8
  edgeFactor : UInt64
  ab : UInt64
  cNorm : UInt64
  aNorm : UInt64

section Edge
variable {P : Type} (pcg : Pcg32 P) (k : KronInput)

/-- One turn of the loop: a bit of the source and one of the destination. -/
def nextBits (s : UInt64 × UInt64 × P) : UInt64 × UInt64 × P :=
  let (src, dst, p) := s
  let (first, p) := pcg.random p
  let iiBit := first.toUInt64 > k.ab
  let jjThresh := if iiBit then k.cNorm else k.aNorm
  let (second, p) := pcg.random p
  let jjBit := second.toUInt64 > jjThresh
  (src <<< 1 + if iiBit then 1 else 0, dst <<< 1 + if jjBit then 1 else 0, p)

def g5kNoweight (p : PcgRec P) (eId : UInt64) : (UInt64 × UInt64) × PcgRec P :=
  let r : Int64 := (2 * k.scale.toUInt64 * eId).toInt64 - p.loc.toInt64
  let moved := if 0 ≤ r then pcg.advance p.p r.toUInt64 else pcg.retreat p.p (-1 * r).toUInt64
  let (src, dst, p) := (nextBits pcg k)^[k.scale.toNat] (0, 0, moved)
  ((src, dst), ⟨p, 2 * k.scale.toUInt64 * (eId + 1)⟩)

end Edge

structure InputParams where
  scale : UInt8
  totEdges : UInt64
  edgeFactor : UInt64
  numVerts : UInt64
  seedA : UInt8
  seedB : UInt8
  seedC : UInt8
  deriving DecidableEq

/-- The checks of the command line, for the numbers that the arguments stand for; `none` is a panic.
The scale is parsed as an 8-bit number. -/
def setupCommandLine (rawS : ℕ) (edgeFactor rawSeedA rawSeedB rawSeedC : UInt64) :
    Option InputParams :=
  if ¬ rawS < 2 ^ 8 then none
  else if ¬ rawS < 64 then none
  else
    let scale := UInt8.ofNat rawS
    let n : UInt64 := 1 <<< scale.toUInt64
    if ¬ edgeFactor < n then none
    else if ¬ (rawSeedA < 100 ∧ rawSeedB < 100 ∧ rawSeedC < 100) then none
    else
      let seedA := rawSeedA.toUInt8
      let seedB := rawSeedB.toUInt8
      let seedC := rawSeedC.toUInt8
      let seedABC : UInt16 := seedA.toUInt16 + seedB.toUInt16 + seedC.toUInt16
      if ¬ seedABC < 100 then none
      else
        let totEdges := n * edgeFactor
        if totEdges / n ≠ edgeFactor then none
        else some ⟨scale, totEdges, edgeFactor, n, seedA, seedB, seedC⟩

/-- How many edges a rank generates. -/
def numEdges (totEdges nprocs myrank : UInt64) : UInt64 :=
  if myrank < totEdges % nprocs then totEdges / nprocs + 1 else totEdges / nprocs

def edgesLow (totEdges nprocs myrank : UInt64) : UInt64 :=
  let numBigRanks := totEdges % nprocs
  if myrank < numBigRanks then myrank * (totEdges / nprocs + 1)
  else numBigRanks * (totEdges / nprocs + 1) + (myrank - numBigRanks) * (totEdges / nprocs)

/-- The values of the loop variable from `low` up to `high`. -/
def indices (low high : UInt64) : List UInt64 :=
  (List.range' low.toNat (high.toNat - low.toNat)).map UInt64.ofNat

section Compute
variable {P : Type} (pcg : Pcg32 P) (vertFeistel edgeFeistel : Feistel)

/-- The loop of `compute`: what is sent on the channel. The first error ends the program. -/
def compute (ip : InputParams) (ki : KronInput) :
    List UInt64 → PcgRec P → Option (List (UInt64 × UInt64))
  | [], _ => some []
  | i :: is, pr => do
    let eId ← edgeFeistel.getIndex i ip.totEdges
    let ((pSrc, pDst), pr) := g5kNoweight pcg ki pr eId
    let src ← vertFeistel.randomIndex pSrc ip.numVerts
    let dst ← vertFeistel.randomIndex pDst ip.numVerts
    let rest ← compute ip ki is pr
    return (src, dst) :: rest

/-- The thresholds are floating-point functions of the three seeds. -/
def kronInput (thresholds : UInt8 → UInt8 → UInt8 → UInt64 × UInt64 × UInt64) (ip : InputParams) :
    KronInput :=
  let (ab, cNorm, aNorm) := thresholds ip.seedA ip.seedB ip.seedC
  ⟨ip.scale, ip.edgeFactor, ab, cNorm, aNorm⟩

/-- The indices of a rank. -/
def rankIndices (ip : InputParams) (nprocs myrank : UInt64) : List UInt64 :=
  indices (edgesLow ip.totEdges nprocs myrank)
    (edgesLow ip.totEdges nprocs myrank + numEdges ip.totEdges nprocs myrank)

/-- The edges that a rank writes. -/
def main (thresholds : UInt8 → UInt8 → UInt8 → UInt64 × UInt64 × UInt64) (seeded : P)
    (ip : InputParams) (nprocs myrank : UInt64) : Option (List (UInt64 × UInt64)) :=
  compute pcg vertFeistel edgeFeistel ip (kronInput thresholds ip) (rankIndices ip nprocs myrank)
    ⟨seeded, 0⟩

end Compute

section Ranks
variable {totEdges nprocs : UInt64} {r : ℕ}

end Ranks

section Positions
variable {P : Type} {pcg : Pcg32 P} {state : UInt64 → P} {k : KronInput} {x : UInt64}

/-- The state of the generator is known by a position, which `Advance` and `Retreat` shift and
`Random` moves by 1, all modulo `2 ^ 64`. -/
structure Shifts (pcg : Pcg32 P) (state : UInt64 → P) : Prop where
  advance : ∀ x d, pcg.advance (state x) d = state (x + d)
  retreat : ∀ x d, pcg.retreat (state x) d = state (x - d)
  random : ∀ x, (pcg.random (state x)).2 = state (x + 1)

theorem nextBits_state (h : Shifts pcg state) (src dst x : UInt64) :
    (nextBits pcg k (src, dst, state x)).2.2 = state (x + 2) := by
  have hsecond : x + 2 = x + 1 + 1 := by ring
  rw [hsecond, ← h.random, ← h.random]
  rfl

/-- Every turn takes two numbers from the generator. -/
theorem iterate_nextBits_state (h : Shifts pcg state) (n : ℕ) (src dst x : UInt64) :
    ((nextBits pcg k)^[n] (src, dst, state x)).2.2 = state (x + 2 * UInt64.ofNat n) := by
  induction n generalizing src dst x with
  | zero => simp
  | succ n ih =>
    rw [Function.iterate_succ_apply]
    have hnext := nextBits_state (k := k) h src dst x
    rcases hbits : nextBits pcg k (src, dst, state x) with ⟨src', dst', p'⟩
    rw [hbits] at hnext
    obtain rfl : p' = state (x + 2) := hnext
    rw [ih, UInt64.ofNat_add]
    congr 1
    show x + 2 + 2 * UInt64.ofNat n = x + 2 * (UInt64.ofNat n + 1)
    ring

/-- The bits so far stay below a power of 2. -/
theorem shift_toNat_lt {w : UInt64} {n : ℕ} (c : Prop) [Decidable c] (hn : n < 63)
    (hw : w.toNat < 2 ^ n) : (w <<< 1 + if c then 1 else 0).toNat < 2 ^ (n + 1) := by
  have hpow : 2 ^ (n + 1) ≤ 2 ^ 63 := Nat.pow_le_pow_right (by decide) hn
  have hdouble : 2 ^ (n + 1) = 2 * 2 ^ n := pow_succ' 2 n
  have hshift : (w <<< 1).toNat = 2 * w.toNat := by
    rw [UInt64.toNat_shiftLeft]
    show w.toNat <<< 1 % 2 ^ 64 = _
    rw [Nat.shiftLeft_eq, Nat.mod_eq_of_lt (by omega)]
    omega
  have hbit : (if c then 1 else 0 : UInt64).toNat ≤ 1 := by split_ifs <;> decide
  rw [UInt64.toNat_add, hshift]
  omega

theorem iterate_nextBits_lt (pcg : Pcg32 P) (k : KronInput) (n m : ℕ) (hn : m + n ≤ 63)
    (src dst : UInt64) (p : P) (hsrc : src.toNat < 2 ^ m) (hdst : dst.toNat < 2 ^ m) :
    ((nextBits pcg k)^[n] (src, dst, p)).1.toNat < 2 ^ (m + n) ∧
      ((nextBits pcg k)^[n] (src, dst, p)).2.1.toNat < 2 ^ (m + n) := by
  induction n generalizing m src dst p with
  | zero => exact ⟨hsrc, hdst⟩
  | succ n ih =>
    rw [Function.iterate_succ_apply, ← Nat.add_assoc, Nat.add_right_comm]
    exact ih (m + 1) (by omega) _ _ _ (shift_toNat_lt _ (by omega) hsrc)
      (shift_toNat_lt _ (by omega) hdst)

/-- The edge for an id: the bits that come from the position of the id. -/
def pairOf (pcg : Pcg32 P) (state : UInt64 → P) (k : KronInput) (eId : UInt64) : UInt64 × UInt64 :=
  let s := (nextBits pcg k)^[k.scale.toNat] (0, 0, state (2 * k.scale.toUInt64 * eId))
  (s.1, s.2.1)

/-- The generator is where its record says. -/
def Synced (state : UInt64 → P) (p : PcgRec P) : Prop := p.p = state p.loc

/-- Seeking by the signed difference ends at the position of the id, also when the difference wraps,
and what is consumed from there on is what the new location says. -/
theorem g5kNoweight_spec (h : Shifts pcg state) {p : PcgRec P} (hp : Synced state p) (eId : UInt64) :
    (g5kNoweight pcg k p eId).1 = pairOf pcg state k eId ∧
      Synced state (g5kNoweight pcg k p eId).2 := by
  obtain ⟨q, loc⟩ := p
  obtain rfl : q = state loc := hp
  obtain ⟨target, htarget⟩ : ∃ t, t = 2 * k.scale.toUInt64 * eId := ⟨_, rfl⟩
  have hmoved : (if 0 ≤ target.toInt64 - loc.toInt64
      then pcg.advance (state loc) (target.toInt64 - loc.toInt64).toUInt64
      else pcg.retreat (state loc) (-1 * (target.toInt64 - loc.toInt64)).toUInt64) =
        state target := by
    split_ifs
    · rw [h.advance]
      congr 1
      show loc + (target - loc) = target
      ring
    · rw [h.retreat]
      congr 1
      show loc - -1 * (target - loc) = target
      ring
  have hend : target + 2 * UInt64.ofNat k.scale.toNat = 2 * k.scale.toUInt64 * (eId + 1) := by
    have hscale : UInt64.ofNat k.scale.toNat = k.scale.toUInt64 :=
      UInt64.ofNat_uInt8ToNat _
    rw [hscale, htarget]
    ring
  unfold g5kNoweight pairOf Synced
  dsimp only
  rw [← htarget, hmoved]
  exact ⟨rfl, (iterate_nextBits_state h _ _ _ _).trans (congrArg state hend)⟩

end Positions

/-- `GetIndex` is a bijection on the numbers below `m`, and `RandomIndex` is defined below `n`. -/
structure Feistel.Permutes (f : Feistel) : Prop where
  getIndex_lt : ∀ {i m}, i < m → ∃ e < m, f.getIndex i m = some e
  getIndex_inj : ∀ {i j m}, i < m → j < m → f.getIndex i m = f.getIndex j m → i = j
  randomIndex : ∀ {v n}, v < n → ∃ w, f.randomIndex v n = some w

section Result
variable {P : Type} {pcg : Pcg32 P} {state : UInt64 → P} {vertFeistel edgeFeistel : Feistel}
  {rawS : ℕ} {edgeFactor rawSeedA rawSeedB rawSeedC : UInt64} {ip : InputParams}

theorem setupCommandLine_spec
    (h : setupCommandLine rawS edgeFactor rawSeedA rawSeedB rawSeedC = some ip) :
    ip.scale.toNat < 64 ∧ ip.numVerts.toNat = 2 ^ ip.scale.toNat := by
  unfold setupCommandLine at h
  dsimp only at h
  split_ifs at h with hbyte hscale
  obtain rfl := Option.some.inj h
  have hs : (UInt8.ofNat rawS).toNat = rawS := UInt8.toNat_ofNat_of_lt' (by omega)
  have hlt : rawS < 64 := by omega
  refine ⟨hs.trans_lt hlt, ?_⟩
  show (1 <<< (UInt8.ofNat rawS).toUInt64 : UInt64).toNat = _
  rw [UInt64.toNat_shiftLeft, UInt8.toNat_toUInt64, hs, Nat.mod_eq_of_lt hlt]
  show 1 <<< rawS % 2 ^ 64 = _
  rw [Nat.shiftLeft_eq, Nat.one_mul, Nat.mod_eq_of_lt (Nat.pow_lt_pow_right (by decide) hlt)]

/-- What an edge index is turned into. -/
def edgeOf (pcg : Pcg32 P) (state : UInt64 → P) (vertFeistel edgeFeistel : Feistel)
    (ip : InputParams) (k : KronInput) (i : UInt64) : Option (UInt64 × UInt64) := do
  let eId ← edgeFeistel.getIndex i ip.totEdges
  let src ← vertFeistel.randomIndex (pairOf pcg state k eId).1 ip.numVerts
  let dst ← vertFeistel.randomIndex (pairOf pcg state k eId).2 ip.numVerts
  return (src, dst)

theorem edgeOf_isSome (pcg : Pcg32 P) (state : UInt64 → P) (hvert : vertFeistel.Permutes) (hedge : edgeFeistel.Permutes)
    (hscale : ip.scale.toNat < 64) (hverts : ip.numVerts.toNat = 2 ^ ip.scale.toNat)
    {k : KronInput} (hk : k.scale = ip.scale) {i : UInt64} (hi : i < ip.totEdges) :
    ∃ e, edgeOf pcg state vertFeistel edgeFeistel ip k i = some e := by
  obtain ⟨eId, -, heId⟩ := hedge.getIndex_lt hi
  have hbits := iterate_nextBits_lt pcg k k.scale.toNat 0 (by rw [hk]; omega) 0 0
    (state (2 * k.scale.toUInt64 * eId)) (by decide) (by decide)
  rw [Nat.zero_add, hk, ← hverts] at hbits
  obtain ⟨src, hsrc⟩ := hvert.randomIndex (v := (pairOf pcg state k eId).1) (n := ip.numVerts)
    (UInt64.lt_iff_toNat_lt.mpr (by rw [pairOf, hk]; exact hbits.1))
  obtain ⟨dst, hdst⟩ := hvert.randomIndex (v := (pairOf pcg state k eId).2) (n := ip.numVerts)
    (UInt64.lt_iff_toNat_lt.mpr (by rw [pairOf, hk]; exact hbits.2))
  refine ⟨(src, dst), ?_⟩
  simp only [edgeOf, heId, hsrc, hdst, Option.bind_eq_bind, Option.bind_some]
  rfl

/-- The generator is synced again after each edge, so a rank's edges depend only on its indices. -/
theorem compute_eq (h : Shifts pcg state) (k : KronInput) (f : UInt64 → UInt64 × UInt64)
    {is : List UInt64} (hf : ∀ i ∈ is, edgeOf pcg state vertFeistel edgeFeistel ip k i = some (f i))
    {pr : PcgRec P} (hpr : Synced state pr) :
    compute pcg vertFeistel edgeFeistel ip k is pr = some (is.map f) := by
  induction is generalizing pr with
  | nil => rfl
  | cons i is ih =>
    have hi := hf i List.mem_cons_self
    unfold edgeOf at hi
    rcases heId : edgeFeistel.getIndex i ip.totEdges with - | eId
    · rw [heId] at hi
      contradiction
    · obtain ⟨hpair, hsynced⟩ := g5kNoweight_spec (k := k) h hpr eId
      have hrest := ih (fun j hj => hf j (List.mem_cons_of_mem i hj)) hsynced
      simp only [heId, ← hpair, Option.bind_eq_bind, Option.bind_some, Option.bind_eq_some_iff] at hi
      obtain ⟨src, hsrc, dst, hdst, hedge⟩ := hi
      have hedge : (src, dst) = f i := Option.some.inj hedge
      simp only [compute, heId, hsrc, hdst, hrest, Option.bind_eq_bind, Option.bind_some, hedge]
      rfl

/-- What a rank writes is determined by its indices. -/
theorem main_eq (hpcg : Shifts pcg state) (hvert : vertFeistel.Permutes)
    (hedge : edgeFeistel.Permutes)
    (thresholds : UInt8 → UInt8 → UInt8 → UInt64 × UInt64 × UInt64)
    (hip : setupCommandLine rawS edgeFactor rawSeedA rawSeedB rawSeedC = some ip) :
    ∃ f : UInt64 → UInt64 × UInt64, ∀ nprocs myrank : UInt64,
      (∀ i ∈ rankIndices ip nprocs myrank, i < ip.totEdges) →
      main pcg vertFeistel edgeFeistel thresholds (state 0) ip nprocs myrank =
        some ((rankIndices ip nprocs myrank).map f) := by
  obtain ⟨hscale, hverts⟩ := setupCommandLine_spec hip
  have hsome (i : UInt64) : ∃ e, i < ip.totEdges → edgeOf pcg state vertFeistel edgeFeistel ip
      (kronInput thresholds ip) i = some e := by
    by_cases hi : i < ip.totEdges
    · obtain ⟨e, he⟩ := edgeOf_isSome pcg state hvert hedge hscale hverts
        (k := kronInput thresholds ip) rfl hi
      exact ⟨e, fun _ => he⟩
    · exact ⟨(0, 0), fun h => absurd h hi⟩
  choose f hf using hsome
  exact ⟨f, fun nprocs myrank his => compute_eq hpcg _ f (fun i hi => hf i (his i hi)) rfl⟩

end Result

section Example
open AffineIterates

end Example

end Scripts.InputGen
