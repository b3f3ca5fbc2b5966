import GraphLogSketch.Wf4.ReachableSetsProgress
import Mathlib.Algebra.BigOperators.Fin

/-! What `GetRandomReverseReachableSets` returns: the clean-up stores every set once in its slot, so
the frequency of a node is the number of slots whose sets contain it. -/
namespace Wf4
open GraphSearch
variable {H : ℕ} {p : Generation H} {store : Store H} {seeds : p.Seeds} {t t' : Generating H}

/-- The sets put aside are done and on the way to their owners. -/
def Generating.Returning (t : Generating H) : Prop :=
  ∀ h k, ∀ s ∈ t.remotePartialSets h k, s.frontier = ∅ ∧ k = s.ownerHost.toUInt32

/-- Every set that is not stored is at its owner. -/
structure Generating.Home (t : Generating H) : Prop where
  owned : ∀ h, ∀ s ∈ t.partialSets h, s.ownerHost = (hostId h).toUInt64
  nothing_sent : ∀ h k, t.remotePartialSets h k = 0

theorem GenerateSets.preserves {P : Generating H → Prop} {finish : Bool}
    (hgen : GenerateSets p.graph finish t t') (ht : t.Inv p store seeds)
    (hstep : ∀ t t', t.Inv p store seeds → GenerateStep p.graph finish t t' → P t → P t')
    (hP : P t) : P t' := by
  have hrun := hgen.1
  clear hgen
  have hboth : t'.Inv p store seeds ∧ P t' := by
    induction hrun with
    | refl => exact ⟨ht, hP⟩
    | tail _ hmove ih => exact ⟨hmove.inv ih.1, hstep _ _ ih.1 hmove ih.2⟩
  exact hboth.2

theorem GenerateStep.returning (hstep : GenerateStep p.graph true t t') (ht : t.Inv p store seeds)
    (hret : t.Returning) : t'.Returning := by
  obtain ⟨h, s, frontier, dist, others, hf, hwf, hr⟩ := hstep.replaces p.hosts_lt ht.valid
  have hspec := continueSet_spec (h := h) hwf hf dist true
  intro j k x hx
  rcases hr.sent j k x hx with hx | ⟨_, _, rfl, hk, _⟩
  · exact hret j k x hx
  · refine ⟨(continueSet_finish hf dist).2.1, ?_⟩
    rw [hspec.ownerHost]
    exact hk rfl

theorem GenerateStep.home (hstep : GenerateStep p.graph true t t') (ht : t.Inv p store seeds)
    (hhome : t.Home) : t'.Home := by
  obtain ⟨h, s, frontier, dist, others, _, _, hr⟩ := hstep.replaces p.hosts_lt ht.valid
  constructor
  · intro k x hx
    exact hhome.owned k x (hr.partialSets k hx)
  · intro j k
    apply Multiset.eq_zero_of_forall_notMem
    intro x hx
    rcases hr.sent j k x hx with hx | ⟨_, hk, _, hown, _⟩
    · rw [hhome.nothing_sent j k] at hx
      exact Multiset.notMem_zero x hx
    · apply hk
      rw [hown rfl, hhome.owned h s hr.here, hostId_toUInt64]

theorem ExchangePartialSets.nothing_sent (hex : ExchangePartialSets t t') (h : Fin H)
    (k : UInt32) : t'.remotePartialSets h k = 0 := by
  obtain ⟨_⟩ := hex
  rfl

theorem ExchangePartialSets.home (hex : ExchangePartialSets t t') (ht : t.Inv p store seeds)
    (hret : t.Returning) : t'.Home := by
  constructor
  · intro k s hs
    obtain ⟨h, hs'⟩ := hex.mem_received ht hs
    have hmem : s ∈ t.sets := t.mem_sets.mpr (Or.inr (Or.inl ⟨h, k, hs'⟩))
    obtain ⟨j, hj⟩ := ht.valid.owned s hmem
    have hk := (hret h _ s hs').2
    rw [hj, hostId_toUInt64] at hk
    rw [hj, hk]
  · exact hex.nothing_sent

theorem Epochs.nothing_sent {n : ℕ} (hep : Epochs p.graph n t t')
    (ht : ∀ h k, t.remotePartialSets h k = 0) (h : Fin H) (k : UInt32) :
    t'.remotePartialSets h k = 0 := by
  cases hep with
  | zero => exact ht h k
  | succ _ _ hex => exact hex.nothing_sent h k

namespace GenerationRun
variable {epochs : ℕ} (r : GenerationRun p epochs store)

theorem expanded_inv : r.expanded.Inv p store r.seeds :=
  r.expanding.inv (startGenerating_inv p store r.seeds)

theorem cleaned_inv : r.cleaned.Inv p store r.seeds := r.cleaning.inv r.expanded_inv

theorem returned_inv : r.returned.Inv p store r.seeds := r.returning.inv r.cleaned_inv r.cleaning.2

theorem final_inv : r.final.Inv p store r.seeds := r.storing.inv r.returned_inv

theorem returned_home : r.returned.Home := by
  apply r.returning.home r.cleaned_inv
  apply r.cleaning.preserves r.expanded_inv fun _ _ ht hstep => hstep.returning ht
  intro h k s hs
  rw [r.expanding.nothing_sent (fun _ _ => rfl) h k] at hs
  exact absurd hs (Multiset.notMem_zero s)

/-- In the end every set is stored. -/
theorem final_sets : r.final.sets = ∑ h, ∑ i, r.final.stored h i := by
  have hhome : r.final.Home :=
    r.storing.preserves r.returned_inv (fun _ _ ht hstep => hstep.home ht) r.returned_home
  simp [Generating.sets, r.storing.2, hhome.nothing_sent]

theorem final_countP (q : PartialReachableSet → Prop) [DecidablePred q] :
    r.final.sets.countP q =
      ∑ h, ∑ i, (r.final.reachableSets h i).countP fun S => q (Generating.storedSet h i S) := by
  have hcount := map_sum (Multiset.countPAddMonoidHom q)
    (fun h => ∑ i, r.final.stored h i) Finset.univ
  rw [final_sets]
  refine hcount.trans (Finset.sum_congr rfl fun h _ => ?_)
  refine (map_sum (Multiset.countPAddMonoidHom q) (r.final.stored h) Finset.univ).trans
    (Finset.sum_congr rfl fun i _ => ?_)
  rw [Multiset.coe_countPAddMonoidHom, Generating.stored, Multiset.coe_countP, List.countP_map]
  rfl

/-- Every slot is stored exactly once, and nothing is stored outside the slots. -/
theorem stored_once (h : Fin H) (i : UInt64) :
    (r.final.reachableSets h i).length = if i ∈ p.slots h then 1 else 0 := by
  have hkeys : (r.final.sets.map PartialReachableSet.key).count (slotKey h i) =
      if i ∈ p.slots h then 1 else 0 := by
    rw [r.final_inv.keys]
    by_cases hi : i ∈ p.slots h
    · rw [if_pos hi]
      exact Multiset.count_eq_one_of_mem p.keys_nodup (p.mem_keys.mpr ⟨h, i, hi, rfl⟩)
    · rw [if_neg hi]
      apply Multiset.count_eq_zero_of_notMem
      intro hmem
      obtain ⟨k, j, hj, hkey⟩ := p.mem_keys.mp hmem
      obtain ⟨rfl, rfl⟩ := slotKey_injective p.hosts_lt hkey
      exact hi hj
  have hcount : (r.final.sets.map PartialReachableSet.key).count (slotKey h i) =
      (r.final.reachableSets h i).length := by
    have hkey (k : Fin H) (j : UInt64) (S : Finset GlobalNodeID) :
        slotKey h i = (Generating.storedSet k j S).key ↔ k = h ∧ j = i := by
      constructor
      · intro he
        obtain ⟨rfl, rfl⟩ := slotKey_injective p.hosts_lt he
        exact ⟨rfl, rfl⟩
      · rintro ⟨rfl, rfl⟩
        rfl
    rw [Multiset.count_map, ← Multiset.countP_eq_card_filter, r.final_countP]
    rw [Finset.sum_eq_single h, Finset.sum_eq_single i]
    · simp [hkey]
    · intro j _ hj
      simp [hkey, hj]
    · simp
    · intro k _ hk
      simp [hkey, hk]
    · simp
  rw [← hcount, hkeys]

theorem exists_stored {h : Fin H} {i : UInt64} (hi : i ∈ p.slots h) :
    ∃ S, r.final.reachableSets h i = [S] := by
  have hone := r.stored_once h i
  rw [if_pos hi] at hone
  exact List.length_eq_one_iff.mp hone

/-- A stored set and the log of its expansions. -/
theorem stored_explored {h : Fin H} {i : UInt64} {S : Finset GlobalNodeID}
    (hS : S ∈ r.final.reachableSets h i) :
    Explored p.graph (r.seeds.root h i) (Generating.storedSet h i S)
      (r.final.log (slotKey h i)) := by
  have hmem : Generating.storedSet h i S ∈ r.final.sets :=
    r.final.mem_sets.mpr (Or.inr (Or.inr ⟨h, i, S, hS, rfl⟩))
  exact r.final_inv.explored _ hmem h i rfl

theorem sets_length (h : Fin H) : (r.sets h).length = (p.hostSets h).toNat := by
  simp [sets, Generation.slots]

/-- A node is counted once for every slot whose set contains it. -/
theorem settledCount_final (v : GlobalNodeID) :
    r.final.settledCount v = ∑ h, (r.sets h).countP fun S => v ∈ S := by
  rw [Generating.settledCount, r.final_countP]
  apply Finset.sum_congr rfl
  intro h _
  have hslot (i : UInt64) : ((r.final.reachableSets h i).countP fun S =>
      v ∈ (Generating.storedSet h i S).settled) =
        if i ∈ p.slots h ∧ v ∈ (r.final.reachableSets h i).headD ∅ then 1 else 0 := by
    by_cases hi : i ∈ p.slots h
    · obtain ⟨S, hS⟩ := r.exists_stored hi
      simp [hS, hi, Generating.storedSet, PartialReachableSet.settled, List.countP_singleton]
    · have hnone := r.stored_once h i
      rw [if_neg hi] at hnone
      simp [List.eq_nil_of_length_eq_zero hnone, hi]
  simp only [hslot, ite_and]
  rw [← Finset.sum_filter, sets, List.countP_map, List.countP_eq_length_filter]
  have hslots : Finset.univ.filter (· ∈ p.slots h) = (p.slots h).toFinset := by
    ext i
    simp
  rw [hslots, ← Finset.sum_filter, Finset.sum_const, smul_eq_mul, mul_one,
    ← List.toFinset_card_of_nodup ((p.slots_nodup h).filter _)]
  apply congrArg Finset.card
  ext i
  simp

theorem settledCount_le (v : GlobalNodeID) :
    r.final.settledCount v ≤ ∑ h, (p.hostSets h).toNat := by
  rw [r.settledCount_final]
  apply Finset.sum_le_sum
  intro h _
  rw [← r.sets_length]
  exact List.countP_le_length

end GenerationRun

section HostSets

theorem Generation.hostSets_toNat (p : Generation H) (h : Fin H) :
    (p.hostSets h).toNat =
      if h.val = H - 1 then p.globalSets.toNat - (H - 1) * (p.globalSets.toNat / H)
      else p.globalSets.toNat / H := by
  have hbound := p.hosts_lt
  have hH : (UInt64.ofNat H).toNat = H := UInt64.toNat_ofNat_of_lt' (by simp [UInt64.size]; omega)
  have hH' : (UInt64.ofNat (H - 1)).toNat = H - 1 :=
    UInt64.toNat_ofNat_of_lt' (by simp [UInt64.size]; omega)
  have hdiv : (p.globalSets / UInt64.ofNat H).toNat = p.globalSets.toNat / H := by
    rw [UInt64.toNat_div, hH]
  have hle : (H - 1) * (p.globalSets.toNat / H) ≤ p.globalSets.toNat :=
    (Nat.mul_le_mul_right _ (Nat.sub_le H 1)).trans (Nat.mul_div_le _ _)
  have hmul : (UInt64.ofNat (H - 1) * (p.globalSets / UInt64.ofNat H)).toNat =
      (H - 1) * (p.globalSets.toNat / H) := by
    rw [UInt64.toNat_mul, hH', hdiv]
    exact Nat.mod_eq_of_lt (hle.trans_lt p.globalSets.toNat_lt)
  unfold hostSets
  split_ifs
  · rw [UInt64.toNat_sub_of_le _ _ (UInt64.le_iff_toNat_le.mpr (hmul ▸ hle)), hmul]
  · exact hdiv

theorem Generation.sum_hostSets (p : Generation H) :
    ∑ h, (p.hostSets h).toNat = p.globalSets.toNat := by
  obtain ⟨n, rfl⟩ : ∃ n, H = n + 1 := Nat.exists_eq_succ_of_ne_zero p.hosts_pos.ne'
  rw [Fin.sum_univ_castSucc]
  have hrest (h : Fin n) : (p.hostSets h.castSucc).toNat = p.globalSets.toNat / (n + 1) := by
    rw [p.hostSets_toNat, if_neg]
    simp [h.isLt.ne]
  have hlast : (p.hostSets (Fin.last n)).toNat =
      p.globalSets.toNat - n * (p.globalSets.toNat / (n + 1)) := by
    rw [p.hostSets_toNat, if_pos (by simp), Nat.add_sub_cancel]
  have hle : n * (p.globalSets.toNat / (n + 1)) ≤ p.globalSets.toNat :=
    (Nat.mul_le_mul_right _ (Nat.le_succ n)).trans (Nat.mul_div_le _ _)
  simp only [hrest, hlast, Finset.sum_const, Finset.card_univ, Fintype.card_fin, smul_eq_mul]
  omega

end HostSets

/-- The slots add up to the sets asked for, each is stored once with a set that contains its root,
and the frequency of a node is the number of slots whose sets contain it. -/
theorem getRandomReverseReachableSets_counts {epochs : ℕ} (r : GenerationRun p epochs store)
    (hzero : ∀ h, ∀ v ∈ p.graph.masters h, (store h v).frequency = 0) :
    ∑ h, (r.sets h).length = p.globalSets.toNat ∧
      (∀ h i, (r.final.reachableSets h i).length = if i ∈ p.slots h then 1 else 0) ∧
      (∀ h, ∀ i ∈ p.slots h, ∃ S, r.final.reachableSets h i = [S] ∧ r.seeds.root h i ∈ S) ∧
      ∀ v, p.graph.IsNode v → (r.final.store (p.graph.getHostID v) v).frequency.toNat =
        ∑ h, (r.sets h).countP fun S => v ∈ S := by
  refine ⟨?_, r.stored_once, ?_, ?_⟩
  · simp only [r.sets_length, p.sum_hostSets]
  · intro h i hi
    obtain ⟨S, hS⟩ := r.exists_stored hi
    exact ⟨S, hS, (r.stored_explored (by rw [hS]; exact List.mem_singleton_self S)).sound.root_mem⟩
  · intro v hv
    have hlt : r.final.settledCount v < 2 ^ 64 :=
      ((r.settledCount_le v).trans_eq p.sum_hostSets).trans_lt p.globalSets.toNat_lt
    rw [r.final_inv.frequency v hv, hzero _ v hv, zero_add, UInt64.toNat_ofNat',
      Nat.mod_eq_of_lt hlt, r.settledCount_final]

/-- Three sets for the chain: its first host owns one, its second two. -/
def chainGeneration : Generation 2 :=
  ⟨chainGraph, 3, by decide, by decide, 0, by decide⟩

theorem exists_chainRun (epochs : ℕ) :
    Nonempty (GenerationRun chainGeneration epochs fun _ _ => NodeData.zero) := by
  apply generationRun_nonempty
  intro h
  fin_cases h <;> decide

theorem getRandomReverseReachableSets_counts_chain :
    ∃ r : GenerationRun chainGeneration 2 fun _ _ => NodeData.zero,
      ∑ h, (r.sets h).length = 3 ∧
        (r.final.store 1 2).frequency.toNat = ∑ h, (r.sets h).countP fun S => 2 ∈ S := by
  obtain ⟨r⟩ := exists_chainRun 2
  have hcounts := getRandomReverseReachableSets_counts r fun _ _ _ => rfl
  exact ⟨r, hcounts.1, hcounts.2.2.2 2 (by decide)⟩

end Wf4
