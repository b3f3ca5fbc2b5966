import Mathlib.Order.Basic
import Mathlib.Tactic

/-! Running maxima with a strict comparison: the first greatest element wins. -/
namespace FirstMax
variable {α β : Type*} [LinearOrder β] (key : α → β)

def better (best a : α) : α := if key best < key a then a else best

/-- `r` is greatest in the list, and nothing before it is as great. -/
def IsFirst (r : α) (l : List α) : Prop :=
  ∃ l₁ l₂, l = l₁ ++ r :: l₂ ∧ (∀ a ∈ l₁, key a < key r) ∧ ∀ a ∈ l₂, key a ≤ key r

variable {key} {r r' best a : α} {l : List α}

theorem IsFirst.mem (h : IsFirst key r l) : r ∈ l := by
  obtain ⟨l₁, l₂, rfl, _, _⟩ := h
  simp

theorem IsFirst.le (h : IsFirst key r l) (ha : a ∈ l) : key a ≤ key r := by
  obtain ⟨l₁, l₂, rfl, hbefore, hafter⟩ := h
  rcases List.mem_append.mp ha with ha | ha
  · exact (hbefore a ha).le
  · rcases List.mem_cons.mp ha with rfl | ha
    · exact le_rfl
    · exact hafter a ha

theorem IsFirst.unique (h : IsFirst key r l) (h' : IsFirst key r' l) : r = r' := by
  obtain ⟨l₁, l₂, rfl, hbefore, hafter⟩ := h
  obtain ⟨k₁, k₂, heq, hbefore', hafter'⟩ := h'
  rcases List.append_eq_append_iff.mp heq with ⟨m, rfl, hm⟩ | ⟨m, rfl, hm⟩
  · cases m with
    | nil => exact (List.cons.inj hm).1
    | cons x m =>
      obtain ⟨rfl, rfl⟩ : r = x ∧ l₂ = m ++ r' :: k₂ := by simpa using hm
      exact absurd (hbefore' r (by simp)) (not_lt.mpr (hafter r' (by simp)))
  · cases m with
    | nil => exact (List.cons.inj hm).1.symm
    | cons x m =>
      obtain ⟨rfl, rfl⟩ : r' = x ∧ k₂ = m ++ r :: l₂ := by simpa using hm
      exact absurd (hbefore r' (by simp)) (not_lt.mpr (hafter' r (by simp)))

theorem isFirst_ofFn {n : ℕ} {f : Fin n → α} : IsFirst key r (List.ofFn f) ↔
    ∃ k, f k = r ∧ (∀ j < k, key (f j) < key r) ∧ ∀ j, key (f j) ≤ key r := by
  have hget (k : Fin n) : (List.ofFn f)[k.val]? = some (f k) := by simp
  constructor
  · intro h
    have hall (j : Fin n) : key (f j) ≤ key r := h.le (List.mem_ofFn.mpr ⟨j, rfl⟩)
    obtain ⟨l₁, l₂, hsplit, hbefore, _⟩ := h
    have hlen : l₁.length < n := by
      have hlength := congrArg List.length hsplit
      simp only [List.length_ofFn, List.length_append, List.length_cons] at hlength
      omega
    refine ⟨⟨l₁.length, hlen⟩, ?_, fun j hj => hbefore _ ?_, hall⟩
    · have hk := hget ⟨l₁.length, hlen⟩
      rw [hsplit] at hk
      simpa using hk.symm
    · have hk := hget j
      rw [hsplit, List.getElem?_append_left hj] at hk
      exact List.mem_of_getElem? hk
  · rintro ⟨k, rfl, hbefore, hall⟩
    have hk : k.val < (List.ofFn f).length := by simp
    refine ⟨(List.ofFn f).take k, (List.ofFn f).drop (k + 1), ?_, fun a ha => ?_, fun a ha => ?_⟩
    · conv_lhs => rw [← List.take_append_drop k.val (List.ofFn f)]
      rw [List.drop_eq_getElem_cons hk, List.getElem_ofFn]
    · obtain ⟨j, hj, rfl⟩ := List.mem_take_iff_getElem.mp ha
      rw [List.getElem_ofFn]
      exact hbefore _ (by simp only [Fin.lt_def]; omega)
    · obtain ⟨j, rfl⟩ := List.mem_ofFn.mp (List.mem_of_mem_drop ha)
      exact hall j

theorem IsFirst.cons (h : IsFirst key r l) (hlt : key best < key r) : IsFirst key r (best :: l) := by
  obtain ⟨l₁, l₂, rfl, hbefore, hafter⟩ := h
  refine ⟨best :: l₁, l₂, rfl, fun a ha => ?_, hafter⟩
  rcases List.mem_cons.mp ha with rfl | ha
  · exact hlt
  · exact hbefore a ha

theorem isFirst_head (h : ∀ a ∈ l, key a ≤ key best) : IsFirst key best (best :: l) :=
  ⟨[], l, rfl, fun _ ha => by simp at ha, h⟩

theorem IsFirst.append (h : IsFirst key r l) (a : α) : IsFirst key (better key r a) (l ++ [a]) := by
  unfold better
  split_ifs with hlt
  · refine ⟨l, [], rfl, fun b hb => (h.le hb).trans_lt hlt, fun b hb => by simp at hb⟩
  · obtain ⟨l₁, l₂, rfl, hbefore, hafter⟩ := h
    refine ⟨l₁, l₂ ++ [a], by simp, hbefore, fun b hb => ?_⟩
    rcases List.mem_append.mp hb with hb | hb
    · exact hafter b hb
    · obtain rfl := List.mem_singleton.mp hb
      exact not_lt.mp hlt

/-- The fold finds the first greatest element. -/
theorem foldl_isFirst (best : α) (l : List α) :
    IsFirst key (l.foldl (better key) best) (best :: l) := by
  induction l using List.reverseRecOn with
  | nil => exact isFirst_head fun _ ha => by simp at ha
  | append_singleton l a ih =>
    rw [List.foldl_append]
    exact ih.append a

theorem foldl_eq (h : IsFirst key r (best :: l)) : l.foldl (better key) best = r :=
  (foldl_isFirst best l).unique h

end FirstMax
