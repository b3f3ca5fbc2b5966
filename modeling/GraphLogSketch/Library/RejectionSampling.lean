import Mathlib.Data.List.Nodup
import Mathlib.Data.List.Perm.Lattice
import Mathlib.Tactic.SplitIfs

/-! Samples drawn again until one is not refused, from given outcomes of the draws. A sample uses up
its outcomes: none of them is left when it is accepted. -/
namespace RejectionSampling
variable {α : Type*}

section Sample
variable (refused : α → Prop) [DecidablePred refused]

def sample : List α → Option α
  | [] => none
  | a :: draws =>
    if refused a then sample draws
    else if draws = [] then some a else none

variable {refused} {draws : List α} {a : α}

/-- The last outcome is the sample, and the ones before it are refused. -/
theorem eq_concat_of_sample (h : sample refused draws = some a) :
    ∃ rejected, draws = rejected ++ [a] ∧ (∀ b ∈ rejected, refused b) ∧ ¬ refused a := by
  induction draws with
  | nil => cases h
  | cons b draws ih =>
    unfold sample at h
    split_ifs at h with hb hend
    · obtain ⟨rejected, rfl, hrejected, ha⟩ := ih h
      exact ⟨b :: rejected, rfl, List.forall_mem_cons.mpr ⟨hb, hrejected⟩, ha⟩
    · cases h
      exact ⟨[], by rw [hend, List.nil_append], by simp, hb⟩

theorem not_refused_of_sample (h : sample refused draws = some a) : ¬ refused a := by
  obtain ⟨_, _, _, ha⟩ := eq_concat_of_sample h
  exact ha

theorem mem_of_sample (h : sample refused draws = some a) : a ∈ draws := by
  obtain ⟨rejected, rfl, _, _⟩ := eq_concat_of_sample h
  exact List.mem_concat_self

/-- The sample is the only outcome that is not refused. -/
theorem filter_of_sample (h : sample refused draws = some a) :
    (draws.filter fun b => ¬ refused b) = [a] := by
  obtain ⟨rejected, rfl, hrejected, ha⟩ := eq_concat_of_sample h
  have hnone : (rejected.filter fun b => ¬ refused b) = [] := by
    simpa [List.filter_eq_nil_iff] using hrejected
  rw [List.filter_append, hnone, List.filter_singleton]
  simp [ha]

end Sample

/-- One sample after the other, none of them one that is used already. -/
def sampleDistinct [DecidableEq α] (used : List α) : List (List α) → Option (List α)
  | [] => some []
  | draws :: rest => do
    let a ← sample (· ∈ used) draws
    let samples ← sampleDistinct (used ++ [a]) rest
    return a :: samples

theorem nodup_of_sampleDistinct [DecidableEq α] {used samples : List α} {draws : List (List α)}
    (hused : used.Nodup) (h : sampleDistinct used draws = some samples) :
    (used ++ samples).Nodup := by
  induction draws generalizing used samples with
  | nil =>
    cases h
    rwa [List.append_nil]
  | cons first rest ih =>
    simp only [sampleDistinct, Option.bind_eq_bind, Option.bind_eq_some_iff, Option.pure_def,
      Option.some.injEq] at h
    obtain ⟨a, ha, samples, hrest, rfl⟩ := h
    have hfresh : (used ++ [a]).Nodup :=
      List.nodup_append.mpr ⟨hused, List.nodup_singleton a, fun b hb c hc hbc =>
        not_refused_of_sample ha (by rw [← List.mem_singleton.mp hc, ← hbc]; exact hb)⟩
    have hall := ih hfresh hrest
    rwa [List.append_assoc] at hall

end RejectionSampling
