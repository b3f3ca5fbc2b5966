import GraphLogSketch.Wf4.ReachableSetsRun

/-! `GetRandomReverseReachableSets` always has a run: a pass uses up the sets of every host, and an
exchange can always be made. -/
namespace Wf4
variable {H : ℕ} {p : Generation H} {store : Store H} {seeds : p.Seeds}

/-- The sets the hosts still have to work on in this pass. -/
def Generating.work (t : Generating H) : ℕ := ∑ h, Multiset.card (t.partialSets h)

theorem exists_generateStep (g : NetworkGraph H) (finish : Bool) (t : Generating H) {h : Fin H}
    (hne : t.partialSets h ≠ 0) : ∃ t', GenerateStep g finish t t' ∧ t'.work < t.work := by
  obtain ⟨s, hs⟩ := Multiset.exists_mem_of_ne_zero hne
  obtain ⟨rest, hrest⟩ := Multiset.exists_cons_of_mem hs
  obtain ⟨frontier, hf⟩ := exists_enumerates s.frontier
  have hbegin : ∃ begin, (continueSet g h (fun _ _ _ => 0) finish frontier s).set.frontier ≠ ∅ →
      begin ∈ (continueSet g h (fun _ _ _ => 0) finish frontier s).set.frontier := by
    rcases Finset.eq_empty_or_nonempty
      (continueSet g h (fun _ _ _ => 0) finish frontier s).set.frontier with hempty | ⟨v, hv⟩
    · exact ⟨0, fun hn => absurd hempty hn⟩
    · exact ⟨v, fun _ => hv⟩
  obtain ⟨begin, hb⟩ := hbegin
  refine ⟨_, .mk (fun _ _ _ => 0) hrest hf hb, ?_⟩
  have hpart : (routeSet g h finish begin (continueSet g h (fun _ _ _ => 0) finish frontier s)
      (t.take h rest)).partialSets = Function.update t.partialSets h rest := by
    unfold routeSet
    split_ifs <;> rfl
  unfold Generating.work
  rw [hpart]
  apply Finset.sum_lt_sum
  · intro k _
    by_cases hk : k = h
    · subst hk
      simp [hrest]
    · simp [hk]
  · exact ⟨h, Finset.mem_univ h, by simp [hrest]⟩

theorem exists_generateSets (g : NetworkGraph H) (finish : Bool) (t : Generating H) :
    ∃ t', GenerateSets g finish t t' := by
  induction hn : t.work using Nat.strong_induction_on generalizing t with
  | _ n ih =>
    by_cases hdone : ∀ h, t.partialSets h = 0
    · exact ⟨t, .refl, hdone⟩
    · obtain ⟨h, hne⟩ := not_forall.mp hdone
      obtain ⟨t₁, hstep, hlt⟩ := exists_generateStep g finish t hne
      obtain ⟨t₂, hrun, hempty⟩ := ih _ (hn ▸ hlt) t₁ rfl
      exact ⟨t₂, .head hstep hrun, hempty⟩

theorem exists_exchange {t : Generating H} (ht : t.Inv p store seeds) :
    ∃ t', ExchangePartialSets t t' := by
  have hall (k h : Fin H) : ∃ incoming, Delivers t h k incoming := by
    obtain ⟨sets, hsets⟩ := Quot.exists_rep (t.remotePartialSets h (hostId k))
    obtain ⟨message, hsent⟩ := exists_message sets
    exact ⟨sets, sets, message, hsets, hsent, incomingSets_sent hsent (ht.fits hsets)⟩
  choose incoming hdelivers using hall
  exact ⟨_, .mk fun k h _ => hdelivers k h⟩

theorem exists_epochs {t : Generating H} (ht : t.Inv p store seeds) (n : ℕ) :
    ∃ t', Epochs p.graph n t t' := by
  induction n with
  | zero => exact ⟨t, .zero t⟩
  | succ n ih =>
    obtain ⟨t₁, hep⟩ := ih
    obtain ⟨t₂, hgen⟩ := exists_generateSets p.graph false t₁
    obtain ⟨t₃, hex⟩ := exists_exchange (hgen.inv (hep.inv ht))
    exact ⟨t₃, .succ hep hgen hex⟩

/-- When every host masters a node, the roots can be drawn and the run ends. -/
theorem generationRun_nonempty (p : Generation H) (hmasters : ∀ h, p.graph.masters h ≠ [])
    (epochs : ℕ) (store : Store H) : Nonempty (GenerationRun p epochs store) := by
  have hstart (seeds : p.Seeds) := startGenerating_inv p store seeds
  let seeds : p.Seeds := fun h _ => ⟨0, List.length_pos_iff.mpr (hmasters h)⟩
  obtain ⟨expanded, hexp⟩ := exists_epochs (hstart seeds) epochs
  have hinv := hexp.inv (hstart seeds)
  obtain ⟨cleaned, hclean⟩ := exists_generateSets p.graph true expanded
  obtain ⟨returned, hret⟩ := exists_exchange (hclean.inv hinv)
  obtain ⟨final, hfinal⟩ := exists_generateSets p.graph true returned
  exact ⟨⟨seeds, expanded, cleaned, returned, final, hexp, hclean, hret, hfinal⟩⟩

end Wf4
