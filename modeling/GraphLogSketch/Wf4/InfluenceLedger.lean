import GraphLogSketch.Wf4.InfluenceUpdates

/-! The counters and the maps together account for every member of every set: what a cleared set
still has to give back is in its counters, what it has given back for other hosts in the maps. -/
namespace Wf4
open GreedyCover
variable {H n : ℕ}

/-- The counters and the maps of a host when `left v` of its sets still have `v` to give back. -/
structure Accounts (g : NetworkGraph H) (h : Fin H) (s : InfluenceHost H n) (data : HostData)
    (updates : Fin H → UpdateMap) (left : GlobalNodeID → ℕ) : Prop where
  frequency : ∀ v ∈ g.masters h, (data v).frequency.toNat + gain s.sets v =
    (s.data v).frequency.toNat + left v
  key : ∀ k, ∀ u ∈ updates k, g.IsNode u.1 ∧ g.getHostID u.1 = k ∧ u.1 ∉ g.masters h
  nodup : ∀ k, ((updates k).map Prod.fst).Nodup
  amounts : ∀ v, g.IsNode v → v ∉ g.masters h →
    (updates (g.getHostID v)).amount v + left v = gain s.sets v

/-- The members of a set that are still in the counters. -/
def Remover.members (S : Finset GlobalNodeID) : Remover → Finset GlobalNodeID
  | .running rest => rest.toFinset
  | _ => S

/-- Where the thread of a set `S` stands when the host holds `S'` in its place. -/
def Remover.Fits (m : GlobalNodeID) (S S' : Finset GlobalNodeID) : Remover → Prop
  | .waiting => S' = S
  | .running rest => m ∈ S ∧ rest.Nodup ∧ ∀ v ∈ rest, v ∈ S
  | .finished => S' = if m ∈ S then ∅ else S

def Removing.pending (t : Removing H n) (i : Fin n) : Finset GlobalNodeID :=
  (t.removers i).members (t.host.sets i)

/-- A host that is removing the sets with `m`, from the state `s` on. -/
structure Removing.Ok (g : NetworkGraph H) (h : Fin H) (m : GlobalNodeID) (s : InfluenceHost H n)
    (t : Removing H n) : Prop where
  fits : ∀ i, (t.removers i).Fits m (s.sets i) (t.host.sets i)
  accounts : Accounts g h s t.host.data t.host.remoteUpdates (gain t.pending)

/-- What a host needs to start: its counters cover its sets, and nothing waits to be sent. -/
structure InfluenceHost.Ready (g : NetworkGraph H) (h : Fin H) (s : InfluenceHost H n) : Prop where
  nodes : ∀ i, ∀ v ∈ s.sets i, g.IsNode v
  covered : ∀ v ∈ g.masters h, gain s.sets v ≤ (s.data v).frequency.toNat
  countable : ∀ v, gain s.sets v < 2 ^ 64
  unsent : ∀ k, s.remoteUpdates k = []

section Step
variable {g : NetworkGraph H} {h : Fin H} {m : GlobalNodeID} {s : InfluenceHost H n}
  {t t' : Removing H n} {order : Fin n → List GlobalNodeID} {i : Fin n} {r : Remover}

theorem startRemoving_ok (hs : s.Ready g h) : (startRemoving s).Ok g h m s := by
  constructor
  · intro i
    rfl
  · constructor
    · intro v _
      rfl
    · intro k u hu
      rw [startRemoving, hs.unsent k] at hu
      simp at hu
    · intro k
      rw [startRemoving, hs.unsent k]
      exact List.nodup_nil
    · intro v _ _
      rw [startRemoving, hs.unsent]
      simp only [UpdateMap.amount_nil, Nat.zero_add]
      rfl

theorem Removing.pending_of_move (hr : t'.removers = Function.update t.removers i r)
    (hsets : ∀ j ≠ i, t'.host.sets j = t.host.sets j) :
    t'.pending = Function.update t.pending i (r.members (t'.host.sets i)) := by
  funext j
  by_cases hj : j = i
  · subst hj
    simp [pending, hr]
  · simp [pending, hr, hsets j hj, hj]

theorem Removing.Ok.move (ht : t.Ok g h m s) (hr : t'.removers = Function.update t.removers i r)
    (hsets : ∀ j ≠ i, t'.host.sets j = t.host.sets j)
    (hfits : r.Fits m (s.sets i) (t'.host.sets i))
    (hacc : Accounts g h s t'.host.data t'.host.remoteUpdates (gain t'.pending)) :
    t'.Ok g h m s := by
  constructor
  · intro j
    by_cases hj : j = i
    · subst hj
      rw [hr, Function.update_self]
      exact hfits
    · rw [hr, Function.update_of_ne hj, hsets j hj]
      exact ht.fits j
  · exact hacc

/-- A thread that moves on without a member leaves the accounts as they are. -/
theorem Removing.Ok.move_idle (ht : t.Ok g h m s)
    (hr : t'.removers = Function.update t.removers i r)
    (hsets : ∀ j ≠ i, t'.host.sets j = t.host.sets j)
    (hfits : r.Fits m (s.sets i) (t'.host.sets i)) (hdata : t'.host.data = t.host.data)
    (hupdates : t'.host.remoteUpdates = t.host.remoteUpdates)
    (hmembers : r.members (t'.host.sets i) = t.pending i) : t'.Ok g h m s := by
  apply ht.move hr hsets hfits
  rw [Removing.pending_of_move hr hsets, hmembers, Function.update_eq_self, hdata, hupdates]
  exact ht.accounts

theorem Removing.pending_pos {v : GlobalNodeID} {rest : List GlobalNodeID}
    (hi : t.removers i = .running (v :: rest)) : 0 < gain t.pending v := by
  apply gain_pos (i := i)
  rw [Removing.pending, hi]
  exact List.mem_toFinset.mpr List.mem_cons_self

/-- A member that is about to be taken out of its counter is counted there. -/
theorem Removing.Ok.frequency_pos (ht : t.Ok g h m s) (hs : s.Ready g h) {v : GlobalNodeID}
    {rest : List GlobalNodeID} (hi : t.removers i = .running (v :: rest))
    (hv : v ∈ g.masters h) : 0 < (t.host.data v).frequency.toNat := by
  have hpos := Removing.pending_pos hi
  have hfreq := ht.accounts.frequency v hv
  have hcov := hs.covered v hv
  omega

section Drop
variable {data : HostData} {updates : Fin H → UpdateMap} {left left' : GlobalNodeID → ℕ}
  {v : GlobalNodeID} (ha : Accounts g h s data updates left) (hs : s.Ready g h)
  (hleft : ∀ w, left' w + (if w = v then 1 else 0) = left w)
include ha hs hleft

/-- A member that the host owns is given back to its counter. -/
theorem Accounts.lower (hown : v ∈ g.masters h) :
    Accounts g h s (data.lower (v, 1)) updates left' where
  frequency := by
    intro w hw
    have hone : ((v, 1) : GlobalNodeID × UInt64).2.toNat = 1 := rfl
    have hle : ((v, 1) : GlobalNodeID × UInt64).2.toNat ≤ (data v).frequency.toNat := by
      have hfreq := ha.frequency v hown
      have hcov := hs.covered v hown
      have hpos := hleft v
      rw [if_pos rfl] at hpos
      omega
    have hd := HostData.lower_frequency hle w
    have hold := ha.frequency w hw
    have hl := hleft w
    rw [hone] at hd
    by_cases hwv : w = v
    · subst hwv
      rw [if_pos rfl] at hl hd
      omega
    · rw [if_neg hwv] at hl
      rw [if_neg (Ne.symm hwv)] at hd
      omega
  key := ha.key
  nodup := ha.nodup
  amounts := by
    intro w hw hwh
    have hwv : w ≠ v := fun he => hwh (he ▸ hown)
    have hl := hleft w
    rw [if_neg hwv, Nat.add_zero] at hl
    rw [hl]
    exact ha.amounts w hw hwh

/-- A member of another host is noted in the map for that host. -/
theorem Accounts.note (hv : g.IsNode v) (hown : v ∉ g.masters h) :
    Accounts g h s data (Function.update updates (g.getHostID v)
      (UpdateMap.tryEmplace v (updates (g.getHostID v)))) left' where
  frequency := by
    intro w hw
    have hwv : w ≠ v := fun he => hown (he ▸ hw)
    have hl := hleft w
    rw [if_neg hwv, Nat.add_zero] at hl
    rw [hl]
    exact ha.frequency w hw
  key := by
    intro k u hu
    by_cases hk : k = g.getHostID v
    · subst hk
      rw [Function.update_self] at hu
      rcases UpdateMap.mem_tryEmplace hu with huv | ⟨x, hx, hxu⟩
      · rw [huv]
        exact ⟨hv, rfl, hown⟩
      · rw [← hxu]
        exact ha.key _ x hx
    · rw [Function.update_of_ne hk] at hu
      exact ha.key k u hu
  nodup := by
    intro k
    by_cases hk : k = g.getHostID v
    · subst hk
      rw [Function.update_self]
      exact UpdateMap.tryEmplace_nodup (ha.nodup _)
    · rw [Function.update_of_ne hk]
      exact ha.nodup k
  amounts := by
    intro w hw hwh
    have hold := ha.amounts w hw hwh
    have hl := hleft w
    have hlt : (updates (g.getHostID v)).amount v + 1 < 2 ^ 64 := by
      have hpos := hleft v
      rw [if_pos rfl] at hpos
      have hamount := ha.amounts v hv hown
      have hcount := hs.countable v
      omega
    by_cases hk : g.getHostID w = g.getHostID v
    · rw [hk] at hold ⊢
      rw [Function.update_self, UpdateMap.amount_tryEmplace hlt]
      omega
    · have hwv : w ≠ v := fun he => hk (he ▸ rfl)
      rw [if_neg hwv, Nat.add_zero] at hl
      rw [Function.update_of_ne hk, hl]
      exact hold

end Drop

/-- Taking one member out moves it from the sets to the counters or to a map. -/
theorem Accounts.drop {left left' : GlobalNodeID → ℕ} {v : GlobalNodeID}
    (ha : Accounts g h s t.host.data t.host.remoteUpdates left) (hs : s.Ready g h)
    (hv : g.IsNode v) (hleft : ∀ w, left' w + (if w = v then 1 else 0) = left w) :
    Accounts g h s (t.drop g h v).host.data (t.drop g h v).host.remoteUpdates left' := by
  unfold Removing.drop
  by_cases hown : v ∈ g.masters h
  · rw [if_pos ((NetworkGraph.isOwned_iff g).mpr hown)]
    exact ha.lower hs hleft hown
  · rw [if_neg fun ho => hown ((NetworkGraph.isOwned_iff g).mp ho)]
    exact ha.note hs hleft hv hown

theorem Removing.drop_removers (v : GlobalNodeID) : (t.drop g h v).removers = t.removers := by
  unfold Removing.drop
  split_ifs <;> rfl

theorem Removing.drop_sets (v : GlobalNodeID) : (t.drop g h v).host.sets = t.host.sets := by
  unfold Removing.drop
  split_ifs <;> rfl

/-- A member that is taken out is neither pending nor counted any more. -/
theorem Removing.Ok.drop (hs : s.Ready g h) (ht : t.Ok g h m s) {i : Fin n} {v : GlobalNodeID}
    {rest : List GlobalNodeID} (hi : t.removers i = .running (v :: rest)) :
    ((t.drop g h v).setRemover i (.running rest)).Ok g h m s := by
  have hfits := ht.fits i
  rw [hi] at hfits
  obtain ⟨hm, hnd, hmem⟩ := hfits
  have hr : ((t.drop g h v).setRemover i (.running rest)).removers =
      Function.update t.removers i (.running rest) := by
    rw [Removing.setRemover, Removing.drop_removers]
  have hsets : ∀ j ≠ i, ((t.drop g h v).setRemover i (.running rest)).host.sets j =
      t.host.sets j := fun j _ => congrFun (Removing.drop_sets v) j
  have hpi : t.pending i = (v :: rest).toFinset := by
    rw [Removing.pending, hi, Remover.members]
  refine ht.move hr hsets ⟨hm, (List.nodup_cons.mp hnd).2, fun w hw =>
    hmem w (List.mem_cons_of_mem v hw)⟩ ?_
  refine Accounts.drop ht.accounts hs (hs.nodes i v (hmem v List.mem_cons_self)) fun w => ?_
  have herase : rest.toFinset = (t.pending i).erase v := by
    rw [hpi, List.toFinset_cons, Finset.erase_insert]
    rw [List.mem_toFinset]
    exact (List.nodup_cons.mp hnd).1
  rw [Removing.pending_of_move hr hsets, Remover.members, herase]
  exact gain_erase (by rw [hpi]; exact List.mem_toFinset.mpr List.mem_cons_self) w

theorem removeReachableSet_ok (hs : s.Ready g h) (horder : ∀ i, Enumerates (order i) (s.sets i))
    (ht : t.Ok g h m s) (i : Fin n) : (removeReachableSet g h m order i t).Ok g h m s := by
  have hfits := ht.fits i
  unfold removeReachableSet
  cases hi : t.removers i with
  | waiting =>
    rw [hi] at hfits
    have hsame : t.host.sets i = s.sets i := hfits
    have hpending : t.pending i = t.host.sets i := by
      rw [Removing.pending, hi]
      rfl
    dsimp only
    split_ifs with hm
    · refine ht.move_idle rfl (fun _ _ => rfl) ?_ rfl rfl ?_
      · refine ⟨hsame ▸ hm, (horder i).1, fun v hv => ?_⟩
        rw [← (horder i).2]
        exact List.mem_toFinset.mpr hv
      · rw [hpending, hsame]
        exact (horder i).2
    · refine ht.move_idle rfl (fun _ _ => rfl) ?_ rfl rfl hpending.symm
      rw [hsame] at hm
      change t.host.sets i = if m ∈ s.sets i then ∅ else s.sets i
      rw [if_neg hm, hsame]
  | finished => exact ht
  | running rest =>
    rw [hi] at hfits
    obtain ⟨hm, hnd, hmem⟩ := hfits
    cases rest with
    | nil =>
      refine ht.move_idle rfl (fun j hj => ?_) ?_ rfl rfl ?_
      · exact Function.update_of_ne hj _ _
      · change Function.update t.host.sets i ∅ i = if m ∈ s.sets i then ∅ else s.sets i
        rw [Function.update_self, if_pos hm]
      · change Function.update t.host.sets i ∅ i = t.pending i
        rw [Function.update_self, Removing.pending, hi, Remover.members, List.toFinset_nil]
    | cons v rest => exact ht.drop hs hi

/-- In every state of the removals the accounts are right. -/
theorem removing_ok (hs : s.Ready g h) (horder : ∀ i, Enumerates (order i) (s.sets i))
    (hrun : Threads.Run (List.finRange n) (removeReachableSet g h m order) (startRemoving s) t) :
    t.Ok g h m s :=
  hrun.invariant (startRemoving_ok hs) fun i _ _ ht => removeReachableSet_ok hs horder ht i

end Step

section Round
variable {n : Fin H → ℕ} {g : NetworkGraph H} {p : Fin H → GlobalNodeID}
  {s : ∀ h, InfluenceHost H (n h)}

/-- The master counters count the sets of all hosts, and nothing waits to be sent. -/
structure Consistent (g : NetworkGraph H) (s : ∀ h, InfluenceHost H (n h)) : Prop where
  nodes : ∀ x, ∀ v ∈ family s x, g.IsNode v
  frequency : ∀ v, g.IsNode v → masterFrequency g (influenceStore s) v = gain (family s) v
  unsent : ∀ h k, (s h).remoteUpdates k = []

theorem gain_family (s : ∀ h, InfluenceHost H (n h)) (v : GlobalNodeID) :
    gain (family s) v = ∑ h, gain (s h).sets v := by
  simp only [gain_eq_sum, Fintype.sum_sigma]
  rfl

theorem gain_le_family (s : ∀ h, InfluenceHost H (n h)) (h : Fin H) (v : GlobalNodeID) :
    gain (s h).sets v ≤ gain (family s) v := by
  rw [gain_family]
  exact Finset.single_le_sum (fun k _ => Nat.zero_le (gain (s k).sets v)) (Finset.mem_univ h)

theorem Consistent.ready (hs : Consistent g s) (h : Fin H) : (s h).Ready g h := by
  have hnodes : ∀ i, ∀ v ∈ (s h).sets i, g.IsNode v := fun i v hv => hs.nodes ⟨h, i⟩ v hv
  constructor
  · exact hnodes
  · intro v hv
    have hfreq := hs.frequency v (NetworkGraph.isNode_of_master hv)
    rw [masterFrequency_eq hv] at hfreq
    exact (gain_le_family s h v).trans_eq hfreq.symm
  · intro v
    by_cases hv : g.IsNode v
    · have hfreq := hs.frequency v hv
      have hle := gain_le_family s h v
      rw [← hfreq] at hle
      exact hle.trans_lt (UInt64.toNat_lt _)
    · rw [gain_eq_zero fun i hi => hv (hnodes i v hi)]
      exact Nat.two_pow_pos 64
  · exact hs.unsent h

theorem Removal.removed_ok (hs : Consistent g s) (r : Removal g p s) (h : Fin H) :
    (r.removed h).Ok g h (p h) (s h) :=
  removing_ok (hs.ready h) (r.order_enumerates h) (r.run h)

theorem Removal.after_sets (hs : Consistent g s) (r : Removal g p s) (h : Fin H) (i : Fin (n h)) :
    (r.after h).sets i = if p h ∈ (s h).sets i then ∅ else (s h).sets i := by
  have hfits := (r.removed_ok hs h).fits i
  rw [r.run_end h i] at hfits
  exact hfits

theorem Removal.gain_pending (r : Removal g p s) (h : Fin H) (v : GlobalNodeID) :
    gain (r.removed h).pending v = gain (r.after h).sets v := by
  have hpending : (r.removed h).pending = (r.after h).sets := by
    funext i
    rw [Removing.pending, r.run_end h i]
    rfl
  rw [hpending]

/-- What a host reads is what the sender had in its map. -/
theorem Removal.applied_amount (hs : Consistent g s) (hbound : ∃ v, ¬ g.IsNode v)
    (r : Removal g p s) (h k : Fin H) (v : GlobalNodeID) :
    (r.applied h k).amount v = ((r.removed h).host.remoteUpdates k).amount v := by
  have hacc := (r.removed_ok hs h).accounts
  have hlen : (r.visited h k).length < 2 ^ 64 := by
    obtain ⟨w, hw⟩ := hbound
    have hnot : w ∉ (((r.removed h).host.remoteUpdates k).map Prod.fst).toFinset := by
      intro hmem
      obtain ⟨u, hu, rfl⟩ := List.mem_map.mp (List.mem_toFinset.mp hmem)
      exact hw (hacc.key k u hu).1
    have hcard := card_lt_of_notMem hnot
    rwa [List.toFinset_card_of_nodup (hacc.nodup k), List.length_map,
      ← (r.visited_perm h k).length_eq] at hcard
  have hperm := r.applied_perm h k
  rw [incomingUpdates_updateMessage hlen] at hperm
  exact UpdateMap.amount_perm (hperm.trans (r.visited_perm h k)) v

/-- The updates a host receives for a node are the members cleared on the other hosts. -/
theorem Removal.updates_amount (hs : Consistent g s) (hbound : ∃ v, ¬ g.IsNode v)
    (r : Removal g p s) {k : Fin H} {v : GlobalNodeID} (hv : v ∈ g.masters k) :
    (r.updates k).amount v + ∑ h ∈ Finset.univ.erase k, gain (r.after h).sets v =
      ∑ h ∈ Finset.univ.erase k, gain (s h).sets v := by
  have hnode := NetworkGraph.isNode_of_master hv
  have hsum : (r.updates k).amount v = ∑ h ∈ Finset.univ.erase k, (r.applied h k).amount v := by
    rw [Removal.updates, UpdateMap.amount_flatMap, ← Fin.sum_univ_def,
      ← Finset.sum_erase_add _ _ (Finset.mem_univ k), if_pos rfl, UpdateMap.amount_nil, add_zero]
    apply Finset.sum_congr rfl
    intro h hh
    rw [if_neg (Finset.ne_of_mem_erase hh)]
  rw [hsum, ← Finset.sum_add_distrib]
  apply Finset.sum_congr rfl
  intro h hh
  have hvh : v ∉ g.masters h := fun hm =>
    Finset.ne_of_mem_erase hh ((g.host_of_master hm).symm.trans (g.host_of_master hv))
  have hamounts := (r.removed_ok hs h).accounts.amounts v hnode hvh
  rw [g.host_of_master hv] at hamounts
  rw [r.applied_amount hs hbound, ← r.gain_pending]
  exact hamounts

/-- Updates for nodes the host does not own are never received. -/
theorem Removal.updates_other (hs : Consistent g s) (hbound : ∃ v, ¬ g.IsNode v)
    (r : Removal g p s) {k : Fin H} {v : GlobalNodeID} (hv : v ∉ g.masters k) :
    (r.updates k).amount v = 0 := by
  rw [Removal.updates, UpdateMap.amount_flatMap]
  apply List.sum_eq_zero
  intro x hx
  obtain ⟨h, _, rfl⟩ := List.mem_map.mp hx
  split_ifs
  · exact UpdateMap.amount_nil v
  · rw [r.applied_amount hs hbound]
    apply UpdateMap.amount_eq_zero
    rintro u hu rfl
    obtain ⟨hnode, hown, _⟩ := (r.removed_ok hs h).accounts.key k u hu
    rw [NetworkGraph.IsNode, hown] at hnode
    exact hv hnode

theorem Removal.updates_le (hs : Consistent g s) (hbound : ∃ v, ¬ g.IsNode v)
    (r : Removal g p s) (k : Fin H) (v : GlobalNodeID) :
    (r.updates k).amount v ≤ ((r.removed k).host.data v).frequency.toNat := by
  by_cases hv : v ∈ g.masters k
  · have hamount := r.updates_amount hs hbound hv
    have hfreq := (r.removed_ok hs k).accounts.frequency v hv
    have hmaster := hs.frequency v (NetworkGraph.isNode_of_master hv)
    rw [masterFrequency_eq hv, gain_family, ← Finset.sum_erase_add _ _ (Finset.mem_univ k)] at hmaster
    change ((s k).data v).frequency.toNat = _ at hmaster
    omega
  · rw [r.updates_other hs hbound hv]
    exact Nat.zero_le _

/-- A round of removals keeps the counters and the sets together. -/
theorem Removal.consistent (hs : Consistent g s) (hbound : ∃ v, ¬ g.IsNode v)
    (r : Removal g p s) : Consistent g r.after := by
  constructor
  · rintro ⟨h, i⟩ v hv
    change v ∈ (r.after h).sets i at hv
    rw [r.after_sets hs] at hv
    split_ifs at hv
    · exact absurd hv (Finset.notMem_empty v)
    · exact hs.nodes ⟨h, i⟩ v hv
  · intro v hv
    have hfold := HostData.foldl_lower (r.updates_le hs hbound (g.getHostID v)) v
    have hamount := r.updates_amount hs hbound hv
    have hfreq := (r.removed_ok hs (g.getHostID v)).accounts.frequency v hv
    have hmaster := hs.frequency v hv
    rw [gain_family, ← Finset.sum_erase_add _ _ (Finset.mem_univ (g.getHostID v))] at hmaster ⊢
    rw [r.gain_pending] at hfreq
    change ((s (g.getHostID v)).data v).frequency.toNat = _ at hmaster
    change (List.foldl HostData.lower (r.removed (g.getHostID v)).host.data
      (r.updates (g.getHostID v)) v).frequency.toNat = _
    omega
  · intro k h
    change (if h = k then (r.removed k).host.remoteUpdates h else []) = []
    split_ifs with hk
    · apply List.eq_nil_iff_forall_not_mem.mpr
      intro u hu
      obtain ⟨hnode, hown, hnot⟩ := (r.removed_ok hs k).accounts.key h u hu
      rw [NetworkGraph.IsNode, hown, hk] at hnode
      exact hnot hnode
    · rfl

end Round
end Wf4
