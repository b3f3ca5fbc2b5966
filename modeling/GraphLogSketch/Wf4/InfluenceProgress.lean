import GraphLogSketch.Wf4.InfluenceLedger

/-! `GetInfluentialNodes` always returns: the removals of a round come to their ends, and the selection
goes on to any number of picks. -/
namespace Wf4
variable {H : ℕ} {n : Fin H → ℕ} {g : NetworkGraph H} {s start : ∀ h, InfluenceHost H (n h)}
  {picks : List (Fin H → GlobalNodeID)}

/-- The steps the thread of a set still takes. -/
def Remover.work (order : List GlobalNodeID) : Remover → ℕ
  | .waiting => order.length + 2
  | .running rest => rest.length + 1
  | .finished => 0

section Progress
variable {m : ℕ} (g : NetworkGraph H) (h : Fin H) (v : GlobalNodeID)
  (order : Fin m → List GlobalNodeID)

theorem removeReachableSet_removers (i : Fin m) (t : Removing H m) :
    ∃ r, (removeReachableSet g h v order i t).removers = Function.update t.removers i r ∧
      (t.removers i ≠ .finished → r.work (order i) < (t.removers i).work (order i)) := by
  unfold removeReachableSet
  cases hi : t.removers i with
  | waiting =>
    dsimp only
    split_ifs
    · exact ⟨_, rfl, fun _ => by simp [Remover.work]⟩
    · exact ⟨_, rfl, fun _ => by simp [Remover.work]⟩
  | running rest =>
    cases rest with
    | nil => exact ⟨_, rfl, fun _ => by simp [Remover.work]⟩
    | cons w rest =>
      refine ⟨.running rest, ?_, fun _ => by simp [Remover.work]⟩
      dsimp only
      rw [Removing.setRemover, Removing.drop_removers]
  | finished =>
    refine ⟨.finished, ?_, fun hne => absurd rfl hne⟩
    dsimp only
    rw [← hi, Function.update_eq_self]

/-- The removals of a host can be run to their ends. -/
theorem exists_removed (t : Removing H m) :
    ∃ t', Threads.Run (List.finRange m) (removeReachableSet g h v order) t t' ∧
      ∀ i, t'.removers i = .finished := by
  have hdec (i : Fin m) (t : Removing H m) (hw : (t.removers i).work (order i) ≠ 0) :
      ((removeReachableSet g h v order i t).removers i).work (order i) <
        (t.removers i).work (order i) := by
    obtain ⟨r, hr, hlt⟩ := removeReachableSet_removers g h v order i t
    rw [hr, Function.update_self]
    apply hlt
    intro hfin
    rw [hfin] at hw
    exact hw rfl
  have hother (i j : Fin m) (t : Removing H m) (hj : j ≠ i) :
      ((removeReachableSet g h v order i t).removers j).work (order j) =
        (t.removers j).work (order j) := by
    obtain ⟨r, hr, _⟩ := removeReachableSet_removers g h v order i t
    rw [hr, Function.update_of_ne hj]
  obtain ⟨t', hrun, hdone⟩ := Threads.exists_run (removeReachableSet g h v order)
    (fun i t => (t.removers i).work (order i)) hdec hother (List.finRange m) t
  refine ⟨t', hrun, fun i => ?_⟩
  have hzero := hdone i (List.mem_finRange i)
  cases hi : t'.removers i with
  | finished => rfl
  | waiting => simp [hi, Remover.work] at hzero
  | running => simp [hi, Remover.work] at hzero

end Progress

theorem removal_nonempty (g : NetworkGraph H) (p : Fin H → GlobalNodeID)
    (s : ∀ h, InfluenceHost H (n h)) : Nonempty (Removal g p s) := by
  let order (h : Fin H) (i : Fin (n h)) : List GlobalNodeID := ((s h).sets i).toList
  have hall (h : Fin H) := exists_removed g h (p h) (order h) (startRemoving (s h))
  choose removed hrun hend using hall
  exact ⟨{
    order := order
    order_enumerates := fun h i => ⟨Finset.nodup_toList _, Finset.toList_toFinset _⟩
    removed := removed
    run := hrun
    run_end := hend
    visited := fun h k => (removed h).host.remoteUpdates k
    visited_perm := fun _ _ => .rfl
    applied := fun h k => incomingUpdates (updateMessage ((removed h).host.remoteUpdates k))
    applied_perm := fun _ _ => .rfl }⟩

/-- Whatever was picked, the selection goes on to any number of picks. -/
theorem Selection.extend (hsel : Selection g start picks s) (j : ℕ) :
    ∃ more s', Selection g start (more ++ picks) s' ∧ more.length = j := by
  induction j with
  | zero => exact ⟨[], s, hsel, rfl⟩
  | succ j ih =>
    obtain ⟨more, s', hsel', hlen⟩ := ih
    obtain ⟨q, qs, hq⟩ : ∃ q qs, more ++ picks = q :: qs := by
      generalize more ++ picks = l at hsel'
      cases hsel' with
      | first c => exact ⟨_, _, rfl⟩
      | next _ _ c => exact ⟨_, _, rfl⟩
    rw [hq] at hsel'
    obtain ⟨r⟩ := removal_nonempty g q s'
    have hnext := hsel'.next r (.inFront g 0 fun _ => 0)
    rw [← hq, ← List.cons_append] at hnext
    exact ⟨_, _, hnext, by rw [List.length_cons, hlen]⟩

end Wf4
