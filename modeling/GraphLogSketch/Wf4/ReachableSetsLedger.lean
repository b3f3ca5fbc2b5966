import GraphLogSketch.Wf4.ReachableSets

/-! Every set is in exactly one place, and the frequency of a node counts the sets that have
settled it. A step takes one set out and puts the continued set back, so both are kept. -/
namespace Wf4
open GraphSearch
variable {H : ℕ}

theorem sum_sum_add_at {ι κ M : Type*} [Fintype ι] [Fintype κ] [DecidableEq ι] [DecidableEq κ]
    [AddCommMonoid M] {F F' : ι → κ → M} {i : ι} {j : κ} {a : M}
    (h : ∀ x y, F' x y = (if x = i ∧ y = j then a else 0) + F x y) :
    ∑ x, ∑ y, F' x y = a + ∑ x, ∑ y, F x y := by
  simp only [h, Finset.sum_add_distrib, ite_and]
  simp

theorem sum_add_at {ι M : Type*} [Fintype ι] [DecidableEq ι] [AddCommMonoid M] {F F' : ι → M}
    {i : ι} {a : M} (h : ∀ x, F' x = (if x = i then a else 0) + F x) :
    ∑ x, F' x = a + ∑ x, F x := by
  simp only [h, Finset.sum_add_distrib]
  simp

theorem hostId_toNat (hH : H < 2 ^ 32) (h : Fin H) : (hostId h).toNat = h.val := by
  rw [hostId, UInt32.toNat_ofNat']
  exact Nat.mod_eq_of_lt (h.isLt.trans hH)

theorem hostId_injective (hH : H < 2 ^ 32) : Function.Injective (hostId (H := H)) := by
  intro h k hk
  apply Fin.ext
  rw [← hostId_toNat hH h, hk, hostId_toNat hH k]

theorem hostId_toUInt64 (h : Fin H) : (hostId h).toUInt64.toUInt32 = hostId h := by simp

theorem slotKey_injective (hH : H < 2 ^ 32) {h k : Fin H} {i j : UInt64}
    (he : slotKey h i = slotKey k j) : h = k ∧ i = j := by
  obtain ⟨ho, hi⟩ := Prod.mk.inj he
  refine ⟨hostId_injective hH ?_, hi⟩
  rw [← hostId_toUInt64 h, ho, hostId_toUInt64]

namespace Generation
variable (p : Generation H)

theorem slots_nodup (h : Fin H) : (p.slots h).Nodup := by
  rw [slots, List.nodup_map_iff_inj_on List.nodup_range]
  intro m hm n hn he
  have hlt {k : ℕ} (hk : k ∈ List.range (p.hostSets h).toNat) : k < UInt64.size :=
    (List.mem_range.mp hk).trans (UInt64.toNat_lt _)
  rw [← UInt64.toNat_ofNat_of_lt' (hlt hm), he, UInt64.toNat_ofNat_of_lt' (hlt hn)]

/-- The keys of all sets, once each. -/
def keys : Multiset (UInt64 × UInt64) := ∑ h, ((p.slots h).map (slotKey h) : List _)

theorem mem_keys {x : UInt64 × UInt64} :
    x ∈ p.keys ↔ ∃ h, ∃ i ∈ p.slots h, x = slotKey h i := by
  simp only [keys, Multiset.mem_sum, Finset.mem_univ, true_and, Multiset.mem_coe, List.mem_map,
    eq_comm]

theorem keys_nodup : p.keys.Nodup := by
  have hbind : p.keys = Finset.univ.val.bind fun h =>
      ((p.slots h).map (slotKey h) : Multiset (UInt64 × UInt64)) := rfl
  rw [hbind, Multiset.nodup_bind]
  constructor
  · intro h _
    apply List.Nodup.map _ (p.slots_nodup h)
    intro i j he
    exact (slotKey_injective p.hosts_lt he).2
  · apply Multiset.Nodup.pairwise _ Finset.univ.nodup
    intro h _ k _ hk
    rw [Function.onFun, Multiset.disjoint_left]
    intro x hx hx'
    obtain ⟨i, _, rfl⟩ := List.mem_map.mp hx
    obtain ⟨j, _, hj⟩ := List.mem_map.mp hx'
    exact hk (slotKey_injective p.hosts_lt hj).1.symm

end Generation

namespace Generating
variable (t : Generating H)

/-- What is stored in a slot, as a set on which nothing is left to do. -/
def storedSet (h : Fin H) (i : UInt64) (S : Finset GlobalNodeID) : PartialReachableSet :=
  ⟨i, (hostId h).toUInt64, S, ∅⟩

def stored (h : Fin H) (i : UInt64) : Multiset PartialReachableSet :=
  ((t.reachableSets h i).map (storedSet h i) : List PartialReachableSet)

/-- All sets, wherever they are. -/
def sets : Multiset PartialReachableSet :=
  ∑ h, t.partialSets h + ∑ h, ∑ k : Fin H, t.remotePartialSets h (hostId k) + ∑ h, ∑ i, t.stored h i

theorem mem_sets {s : PartialReachableSet} : s ∈ t.sets ↔
    (∃ h, s ∈ t.partialSets h) ∨ (∃ h, ∃ k : Fin H, s ∈ t.remotePartialSets h (hostId k)) ∨
      ∃ h i, ∃ S ∈ t.reachableSets h i, s = storedSet h i S := by
  simp only [sets, stored, Multiset.mem_add, Multiset.mem_sum, Finset.mem_univ, true_and,
    Multiset.mem_coe, List.mem_map, or_assoc, eq_comm]

variable {t} {h : Fin H} {s : PartialReachableSet} {rest : Multiset PartialReachableSet}

theorem sets_take (hs : t.partialSets h = s ::ₘ rest) : t.sets = s ::ₘ (t.take h rest).sets := by
  have hsum : ∑ k, t.partialSets k = {s} + ∑ k, (t.take h rest).partialSets k := by
    apply sum_add_at (i := h)
    intro k
    by_cases hk : k = h
    · rw [hk, hs]
      simp [take]
    · simp [take, hk]
  rw [sets, hsum, sets, ← Multiset.singleton_add, add_assoc, add_assoc, add_assoc]
  rfl

@[simp] theorem sets_record (t : Generating H) (h : Fin H) (c : Continued) :
    (t.record h c).sets = t.sets := rfl

theorem sets_keep (hown : s.ownerHost = (hostId h).toUInt64) (hdone : s.frontier = ∅) :
    (t.keep h s).sets = s ::ₘ t.sets := by
  have hs : s = storedSet h s.id s.partialReachableSet := by
    rw [storedSet, ← hown, ← hdone]
  have hsum : ∑ k, ∑ i, (t.keep h s).stored k i = {s} + ∑ k, ∑ i, t.stored k i := by
    apply sum_sum_add_at (i := h) (j := s.id)
    intro k i
    by_cases hk : k = h
    · subst hk
      by_cases hi : i = s.id
      · subst hi
        simp only [stored, keep, Function.update_self, List.map_cons, and_self, if_true, ← hs]
        rw [Multiset.singleton_add, Multiset.cons_coe]
      · simp [stored, keep, hi]
    · simp [stored, keep, hk]
  rw [sets, hsum, sets, ← Multiset.singleton_add, add_left_comm]
  rfl

theorem sets_send (hH : H < 2 ^ 32) (k : Fin H) : (t.send h (hostId k) s).sets = s ::ₘ t.sets := by
  have hsum : ∑ j, ∑ l : Fin H, (t.send h (hostId k) s).remotePartialSets j (hostId l) =
      {s} + ∑ j, ∑ l : Fin H, t.remotePartialSets j (hostId l) := by
    apply sum_sum_add_at (i := h) (j := k)
    intro j l
    by_cases hj : j = h
    · subst hj
      by_cases hl : l = k
      · subst hl
        simp [send]
      · have hne : hostId l ≠ hostId k := fun he => hl (hostId_injective hH he)
        simp [send, hl, hne]
    · simp [send, hj]
  rw [sets, hsum, sets, ← Multiset.singleton_add]
  simp only [add_assoc, add_left_comm _ ({s} : Multiset PartialReachableSet)]
  rfl

end Generating

theorem HostData.raise_frequency (d : HostData) (l : List GlobalNodeID) (v : GlobalNodeID) :
    (d.raise l v).frequency = (d v).frequency + UInt64.ofNat (l.count v) := by
  induction l generalizing d with
  | nil => simp [raise]
  | cons w l ih =>
    have hstep := ih (d.modify w fun n => { n with frequency := n.frequency + 1 })
    rw [raise, List.foldl_cons, ← raise, hstep]
    by_cases hvw : v = w
    · subst hvw
      rw [HostData.modify_self, List.count_cons_self, UInt64.ofNat_add, add_assoc]
      congr 1
      exact add_comm _ _
    · rw [HostData.modify_of_ne _ _ hvw, List.count_cons_of_ne (Ne.symm hvw)]

/-- The set is done, or some node that it still has to expand is on this host. -/
def PartialReachableSet.WaitsAt (g : NetworkGraph H) (h : Fin H) (s : PartialReachableSet) : Prop :=
  s.frontier = ∅ ∨ ∃ v ∈ s.frontier, v ∈ g.masters h

/-- A step takes `s` from the host `h` and puts the set of `c` back. -/
structure Replaces (g : NetworkGraph H) (h : Fin H) (finish : Bool) (s : PartialReachableSet)
    (c : Continued) (others : Multiset PartialReachableSet) (t t' : Generating H) : Prop where
  taken : t.sets = s ::ₘ others
  put : t'.sets = c.set ::ₘ others
  key : c.set.key = s.key
  store : t'.store = Function.update t.store h ((t.store h).raise c.counted)
  log : t'.log = Function.update t.log s.key (t.log s.key ++ c.log)
  here : s ∈ t.partialSets h
  partialSets : ∀ k, t'.partialSets k ⊆ t.partialSets k
  stays : ∀ k, ∀ x ∈ t.partialSets k, x = s ∨ x ∈ t'.partialSets k
  sent : ∀ j k, ∀ x ∈ t'.remotePartialSets j k, x ∈ t.remotePartialSets j k ∨
    (j = h ∧ k ≠ hostId h ∧ x = c.set ∧ (finish = true → k = s.ownerHost.toUInt32) ∧
      (finish = false → ∃ l, k = hostId l ∧ c.set.WaitsAt g l))

/-- The owners of all sets are hosts, and the sets can be worked on. -/
structure Generating.Valid (g : NetworkGraph H) (t : Generating H) : Prop where
  owned : ∀ s ∈ t.sets, ∃ h : Fin H, s.ownerHost = (hostId h).toUInt64
  wellFormed : ∀ s ∈ t.sets, s.WellFormed g

theorem Generating.mem_send {t : Generating H} {h j : Fin H} {k l : UInt32}
    {s x : PartialReachableSet} (hx : x ∈ (t.send h k s).remotePartialSets j l) :
    x ∈ t.remotePartialSets j l ∨ (j = h ∧ l = k ∧ x = s) := by
  by_cases hj : j = h
  · subst hj
    by_cases hl : l = k
    · subst hl
      simp only [send, Function.update_self, Multiset.mem_cons] at hx
      exact hx.symm.imp id fun he => ⟨rfl, rfl, he⟩
    · exact Or.inl (by simpa [send, hl] using hx)
  · exact Or.inl (by simpa [send, hj] using hx)

/-- A set that its host does not store goes to another host. -/
theorem Continued.Spec.nextHost {g : NetworkGraph H} {h j : Fin H} {s : PartialReachableSet}
    {c : Continued} {finish : Bool} {begin : GlobalNodeID} (hspec : c.Spec g h s)
    (hj : s.ownerHost = (hostId j).toUInt64)
    (hb : c.set.frontier ≠ ∅ → begin ∈ c.set.frontier)
    (hroute : ¬ (c.set.ownerHost = (hostId h).toUInt64 ∧ (finish || c.set.Finished) = true)) :
    ∃ k : Fin H, k ≠ h ∧ c.set.nextHost g finish begin = hostId k ∧
      (finish = true → hostId k = s.ownerHost.toUInt32) ∧
      (finish = false → c.set.WaitsAt g k) := by
  unfold PartialReachableSet.nextHost
  split_ifs with hfin
  · refine ⟨j, ?_, ?_, fun _ => ?_, fun hgoes => Or.inl ?_⟩
    · intro hjh
      exact hroute ⟨by rw [hspec.ownerHost, hj, hjh], hfin⟩
    · rw [hspec.ownerHost, hj, hostId_toUInt64]
    · rw [hj, hostId_toUInt64]
    · simpa [hgoes, PartialReachableSet.Finished] using hfin
  · have hne : c.set.frontier ≠ ∅ := by
      intro hempty
      simp [PartialReachableSet.Finished, hempty] at hfin
    have hbegin := hb hne
    have hnode := hspec.wellFormed.nodes begin (hspec.wellFormed.frontier_sub hbegin)
    refine ⟨g.getHostID begin, ?_, rfl, fun hfinish => ?_, fun _ => Or.inr ⟨begin, hbegin, ?_⟩⟩
    · intro hown
      exact hspec.remote begin hbegin ((NetworkGraph.master_iff hnode).mpr hown)
    · simp [hfinish] at hfin
    · exact (NetworkGraph.master_iff hnode).mpr rfl

theorem GenerateStep.replaces {g : NetworkGraph H} {finish : Bool} {t t' : Generating H}
    (hstep : GenerateStep g finish t t') (hH : H < 2 ^ 32) (ht : t.Valid g) :
    ∃ h s frontier dist others, Enumerates frontier s.frontier ∧ s.WellFormed g ∧
      Replaces g h finish s (continueSet g h dist finish frontier s) others t t' := by
  obtain @⟨h, s, rest, frontier, begin, dist, hs, hf, hb⟩ := hstep
  have hmem : s ∈ t.sets := by
    rw [Generating.sets_take hs]
    exact Multiset.mem_cons_self s _
  have hwf := ht.wellFormed s hmem
  have hspec := continueSet_spec (h := h) hwf hf dist finish
  obtain ⟨j, hj⟩ := ht.owned s hmem
  have hkey : (continueSet g h dist finish frontier s).set.key = s.key := by
    rw [PartialReachableSet.key, hspec.id, hspec.ownerHost, PartialReachableSet.key]
  refine ⟨h, s, frontier, dist, (t.take h rest).sets, hf, hwf, ?_⟩
  set c := continueSet g h dist finish frontier s with hc
  have hsub (k : Fin H) : (t.take h rest).partialSets k ⊆ t.partialSets k := by
    intro x hx
    by_cases hk : k = h
    · subst hk
      rw [hs]
      exact Multiset.mem_cons_of_mem (by simpa [Generating.take] using hx)
    · simpa [Generating.take, hk] using hx
  have hstays (k : Fin H) : ∀ x ∈ t.partialSets k, x = s ∨ x ∈ (t.take h rest).partialSets k := by
    intro x hx
    by_cases hk : k = h
    · subst hk
      rw [hs, Multiset.mem_cons] at hx
      simpa [Generating.take] using hx
    · exact Or.inr (by simpa [Generating.take, hk] using hx)
  have hhere : s ∈ t.partialSets h := by
    rw [hs]
    exact Multiset.mem_cons_self s rest
  unfold routeSet
  split_ifs with hroute
  · have hdone : c.set.frontier = ∅ := by
      cases finish with
      | true => exact (continueSet_finish hf dist).2.1
      | false => simpa [PartialReachableSet.Finished] using hroute.2
    constructor
    · exact Generating.sets_take hs
    · rw [Generating.sets_keep hroute.1 hdone, Generating.sets_record]
    · exact hkey
    · rfl
    · rw [← hkey]
      rfl
    · exact hhere
    · exact hsub
    · exact hstays
    · intro j k x hx
      exact Or.inl hx
  · obtain ⟨k, hk, hnext, hfin, hwaits⟩ := hspec.nextHost hj hb hroute
    rw [hnext]
    constructor
    · exact Generating.sets_take hs
    · rw [Generating.sets_send hH, Generating.sets_record]
    · exact hkey
    · rfl
    · rw [← hkey]
      rfl
    · exact hhere
    · exact hsub
    · exact hstays
    · intro j l x hx
      rcases Generating.mem_send hx with hx | ⟨rfl, rfl, rfl⟩
      · exact Or.inl hx
      · exact Or.inr ⟨rfl, fun he => hk (hostId_injective hH he), rfl, hfin,
          fun hgoes => ⟨k, rfl, hwaits hgoes⟩⟩

end Wf4
