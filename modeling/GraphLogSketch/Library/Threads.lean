import Mathlib.Logic.Relation
import Mathlib.Tactic

/-! Threads over a shared state. A scheduler picks the thread that moves next; a thread that has
finished stays where it is. -/
namespace Threads
variable {τ σ : Type*}

/-- Some thread of the list takes its next step. -/
def Step (ts : List τ) (step : τ → σ → σ) (s s' : σ) : Prop := ∃ t ∈ ts, s' = step t s

/-- Any number of steps of the threads, in any order. -/
abbrev Run (ts : List τ) (step : τ → σ → σ) : σ → σ → Prop :=
  Relation.ReflTransGen (Step ts step)

/-- Threads move in the order in which they are picked; then those that are left finish one by one. -/
def complete [DecidableEq τ] (step : τ → σ → σ) (work : τ → σ → ℕ) (ts picks : List τ) (s : σ) : σ :=
  ts.foldl (fun s t => (step t)^[work t s] s)
    ((picks.filter (· ∈ ts)).foldl (fun s t => step t s) s)

/-- The state after the threads have moved in the order in which they are picked. -/
def after (step : τ → σ → σ) (picks : List τ) (s : σ) : σ := picks.foldl (fun s t => step t s) s

/-- Each thread meets the condition in the state in which it is picked. -/
def Always (step : τ → σ → σ) (C : τ → σ → Prop) : List τ → σ → Prop
  | [], _ => True
  | t :: picks, s => C t s ∧ Always step C picks (step t s)

variable {ts picks : List τ} {step : τ → σ → σ} {s s' : σ}

theorem Run.invariant {P : σ → Prop} (h : Run ts step s s') (hs : P s)
    (hstep : ∀ t ∈ ts, ∀ s, P s → P (step t s)) : P s' := by
  induction h with
  | refl => exact hs
  | tail _ hmove ih =>
    obtain ⟨t, ht, rfl⟩ := hmove
    exact hstep t ht _ ih

theorem Run.mono {us : List τ} (h : Run us step s s') (hsub : us ⊆ ts) : Run ts step s s' :=
  Relation.ReflTransGen.mono (fun _ _ ⟨t, ht, he⟩ => ⟨t, hsub ht, he⟩) _ _ h

section Picks

/-- Picks of threads are runs. -/
theorem after_run (hpicks : ∀ t ∈ picks, t ∈ ts) (s : σ) : Run ts step s (after step picks s) := by
  induction picks generalizing s with
  | nil => exact .refl
  | cons t picks ih =>
    exact .head ⟨t, hpicks t List.mem_cons_self, rfl⟩
      (ih (fun u hu => hpicks u (List.mem_cons_of_mem t hu)) _)

/-- Every run picks its threads in some order. -/
theorem exists_after (h : Run ts step s s') :
    ∃ picks : List τ, (∀ t ∈ picks, t ∈ ts) ∧ after step picks s = s' := by
  induction h with
  | refl => exact ⟨[], fun t ht => absurd ht List.not_mem_nil, rfl⟩
  | tail _ hmove ih =>
    obtain ⟨picks, hmem, rfl⟩ := ih
    obtain ⟨t, ht, rfl⟩ := hmove
    refine ⟨picks ++ [t], fun u hu => ?_, by rw [after, List.foldl_append]; rfl⟩
    rcases List.mem_append.mp hu with hu | hu
    · exact hmem u hu
    · exact List.mem_singleton.mp hu ▸ ht

section Potential
variable {K : Type*} [Preorder K] {P : σ → Prop} {C : τ → σ → Prop} {f : σ → K}
  (hstep : ∀ t ∈ ts, ∀ s, P s → P (step t s))
  (hkeep : ∀ t ∈ ts, ∀ s, P s → C t s → f (step t s) = f s)
  (hgrow : ∀ t ∈ ts, ∀ s, P s → ¬ C t s → f s < f (step t s))
include hstep hkeep hgrow

theorem le_after (hpicks : ∀ t ∈ picks, t ∈ ts) (hs : P s) : f s ≤ f (after step picks s) := by
  induction picks generalizing s with
  | nil => exact le_rfl
  | cons t picks ih =>
    have ht := hpicks t List.mem_cons_self
    have hnext := ih (fun u hu => hpicks u (List.mem_cons_of_mem t hu)) (hstep t ht s hs)
    by_cases hC : C t s
    · exact (hkeep t ht s hs hC).ge.trans hnext
    · exact (hgrow t ht s hs hC).le.trans hnext

/-- A quantity that only grows where the condition fails is the same in the end exactly if the
condition was always met. -/
theorem after_eq_iff_always (hpicks : ∀ t ∈ picks, t ∈ ts) (hs : P s) :
    f (after step picks s) = f s ↔ Always step C picks s := by
  induction picks generalizing s with
  | nil => exact iff_of_true rfl trivial
  | cons t picks ih =>
    have ht := hpicks t List.mem_cons_self
    have hrest : ∀ u ∈ picks, u ∈ ts := fun u hu => hpicks u (List.mem_cons_of_mem t hu)
    by_cases hC : C t s
    · rw [← hkeep t ht s hs hC]
      exact (ih hrest (hstep t ht s hs)).trans (and_iff_right hC).symm
    · have hlt := (hgrow t ht s hs hC).trans_le
        (le_after hstep hkeep hgrow hrest (hstep t ht s hs))
      exact iff_of_false hlt.ne' fun h => hC h.1

end Potential

end Picks

section Work
variable (step : τ → σ → σ) (work : τ → σ → ℕ)
  (hdec : ∀ t s, work t s ≠ 0 → work t (step t s) < work t s)
  (hother : ∀ t u s, u ≠ t → work u (step t s) = work u s)
include hdec hother

/-- A thread whose steps use up its work can be run alone until none is left. -/
theorem exists_alone (t : τ) (s : σ) :
    ∃ s', Run [t] step s s' ∧ work t s' = 0 ∧ ∀ u ≠ t, work u s' = work u s := by
  induction hn : work t s using Nat.strong_induction_on generalizing s with
  | _ n ih =>
    by_cases hzero : work t s = 0
    · exact ⟨s, .refl, hzero, fun _ _ => rfl⟩
    · obtain ⟨s', hrun, hdone, hrest⟩ := ih _ (hn ▸ hdec t s hzero) (step t s) rfl
      refine ⟨s', .head ⟨t, List.mem_singleton_self t, rfl⟩ hrun, hdone, fun u hu => ?_⟩
      rw [hrest u hu, hother t u s hu]

/-- The threads can always be scheduled so that all of them finish. -/
theorem exists_run (ts : List τ) (s : σ) :
    ∃ s', Run ts step s s' ∧ ∀ t ∈ ts, work t s' = 0 := by
  induction ts generalizing s with
  | nil => exact ⟨s, .refl, fun t ht => by simp at ht⟩
  | cons t ts ih =>
    obtain ⟨s₁, hrun₁, hdone₁⟩ := ih s
    obtain ⟨s₂, hrun₂, hdone₂, hrest⟩ := exists_alone step work hdec hother t s₁
    refine ⟨s₂, (hrun₁.mono (List.subset_cons_self t ts)).trans (hrun₂.mono (by simp)), ?_⟩
    intro u hu
    by_cases hut : u = t
    · rwa [hut]
    · rw [hrest u hut]
      exact hdone₁ u ((List.mem_cons.mp hu).resolve_left hut)

/-- A thread that is let move as often as it has work left finishes, and no other one moves. -/
theorem iterate_alone (hstay : ∀ t s, work t s = 0 → step t s = s) (t : τ) (n : ℕ) (s : σ)
    (hn : work t s ≤ n) :
    work t ((step t)^[n] s) = 0 ∧ ∀ u ≠ t, work u ((step t)^[n] s) = work u s := by
  induction n generalizing s with
  | zero => exact ⟨Nat.le_zero.mp hn, fun _ _ => rfl⟩
  | succ n ih =>
    have hnext : work t (step t s) ≤ n := by
      by_cases hzero : work t s = 0
      · rw [hstay t s hzero, hzero]
        exact Nat.zero_le n
      · have hlt := hdec t s hzero
        omega
    obtain ⟨hdone, hrest⟩ := ih (step t s) hnext
    rw [Function.iterate_succ_apply]
    exact ⟨hdone, fun u hu => (hrest u hu).trans (hother t u s hu)⟩

/-- Whatever has been picked before, in the end no thread has work left. -/
theorem complete_done [DecidableEq τ] (hstay : ∀ t s, work t s = 0 → step t s = s) (ts : List τ)
    (picks : List τ) (s : σ) : ∀ t ∈ ts, work t (complete step work ts picks s) = 0 := by
  unfold complete
  generalize (picks.filter (· ∈ ts)).foldl (fun s t => step t s) s = s
  have hkeep (us : List τ) (s : σ) (t : τ) (ht : work t s = 0) :
      work t (us.foldl (fun s t => (step t)^[work t s] s) s) = 0 := by
    induction us generalizing s with
    | nil => exact ht
    | cons u us ih =>
      apply ih
      obtain ⟨hdone, hrest⟩ := iterate_alone step work hdec hother hstay u (work u s) s le_rfl
      by_cases htu : t = u
      · exact htu ▸ hdone
      · rwa [hrest t htu]
  induction ts generalizing s with
  | nil => exact fun t ht => absurd ht List.not_mem_nil
  | cons u us ih =>
    intro t ht
    rcases List.mem_cons.mp ht with rfl | ht
    · exact hkeep us _ t (iterate_alone step work hdec hother hstay t (work t s) s le_rfl).1
    · exact ih _ t ht

omit hdec hother in
/-- Every run in which all threads finish is one of these. -/
theorem exists_picks [DecidableEq τ] {ts : List τ} {s s' : σ} (h : Run ts step s s')
    (hdone : ∀ t ∈ ts, work t s' = 0) : ∃ picks, complete step work ts picks s = s' := by
  obtain ⟨picks, hmem, hfold⟩ := exists_after h
  have hidle (us : List τ) (hus : ∀ t ∈ us, t ∈ ts) :
      us.foldl (fun s t => (step t)^[work t s] s) s' = s' := by
    induction us with
    | nil => rfl
    | cons u us ih =>
      rw [List.foldl_cons, hdone u (hus u List.mem_cons_self)]
      exact ih fun t ht => hus t (List.mem_cons_of_mem u ht)
  refine ⟨picks, ?_⟩
  have hall : picks.filter (· ∈ ts) = picks :=
    List.filter_eq_self.mpr fun t ht => decide_eq_true (hmem t ht)
  change ts.foldl _ (after step (picks.filter (· ∈ ts)) s) = s'
  rw [hall, hfold]
  exact hidle ts fun _ ht => ht

end Work

theorem complete_run [DecidableEq τ] (step : τ → σ → σ) (work : τ → σ → ℕ) (ts picks : List τ)
    (s : σ) : Run ts step s (complete step work ts picks s) := by
  have halone (t : τ) (ht : t ∈ ts) (n : ℕ) (s : σ) : Run ts step s ((step t)^[n] s) := by
    induction n generalizing s with
    | zero => exact .refl
    | succ n ih => exact .head ⟨t, ht, rfl⟩ (ih (step t s))
  have hrest (us : List τ) (hus : ∀ t ∈ us, t ∈ ts) (s : σ) :
      Run ts step s (us.foldl (fun s t => (step t)^[work t s] s) s) := by
    induction us generalizing s with
    | nil => exact .refl
    | cons u us ih =>
      exact (halone u (hus u List.mem_cons_self) _ s).trans
        (ih (fun t ht => hus t (List.mem_cons_of_mem u ht)) _)
  refine (after_run (fun t ht => ?_) s).trans (hrest ts (fun _ ht => ht) _)
  exact of_decide_eq_true (List.mem_filter.mp ht).2

end Threads
