import Mathlib.Order.Basic
import Mathlib.Tactic

/-! Binary search by halving, on an array that need not be sorted. What is found depends only on the
entries at the midpoints of the halvings. -/
namespace BinarySearch
variable {α : Type*} [LinearOrder α]

/-- The position at which halving a range of `len` entries ends: entries below `d` are passed. -/
def lowerBound (a : ℕ → α) (d : α) (first len : ℕ) : ℕ :=
  if len = 0 then first
  else if a (first + len / 2) < d then
    lowerBound a d (first + len / 2 + 1) (len - len / 2 - 1)
  else lowerBound a d first (len / 2)
termination_by len

def binarySearch (a : ℕ → α) (first last : ℕ) (d : α) : Bool :=
  decide (lowerBound a d first (last - first) ≠ last ∧
    ¬ d < a (lowerBound a d first (last - first)))

/-- The midpoints of the halvings that close in on position `i`. -/
def midpoints (first len i : ℕ) : List ℕ :=
  if len = 0 then []
  else if first + len / 2 < i then
    (first + len / 2) :: midpoints (first + len / 2 + 1) (len - len / 2 - 1) i
  else (first + len / 2) :: midpoints first (len / 2) i
termination_by len

/-- A position that holds `d` and from which the range looks sorted at the midpoints towards it. -/
def Met (a : ℕ → α) (first last : ℕ) (d : α) : Prop :=
  ∃ i, first ≤ i ∧ i < last ∧ a i = d ∧ ∀ m ∈ midpoints first (last - first) i, a m < d ↔ m < i

variable {a : ℕ → α} {d : α} {first last len i m : ℕ}

theorem lowerBound_bounds (a : ℕ → α) (d : α) (first len : ℕ) :
    first ≤ lowerBound a d first len ∧ lowerBound a d first len ≤ first + len := by
  fun_induction lowerBound a d first len with
  | case1 first => exact ⟨le_rfl, le_rfl⟩
  | case2 first len hlen hlt ih => omega
  | case3 first len hlen hle ih => omega

theorem le_lowerBound (h : lowerBound a d first len < first + len) :
    d ≤ a (lowerBound a d first len) := by
  fun_induction lowerBound a d first len with
  | case1 first => omega
  | case2 first len hlen hlt ih => exact ih (by omega)
  | case3 first len hlen hle ih =>
    by_cases heq : lowerBound a d first (len / 2) = first + len / 2
    · rw [heq]
      exact not_lt.mp hle
    · have hbound := (lowerBound_bounds a d first (len / 2)).2
      exact ih (by omega)

/-- The search ends at a position when the comparisons at the midpoints lead there. -/
theorem lowerBound_eq_iff (hfirst : first ≤ i) (hlast : i ≤ first + len) :
    lowerBound a d first len = i ↔ ∀ m ∈ midpoints first len i, (a m < d ↔ m < i) := by
  fun_induction midpoints first len i with
  | case1 first =>
    rw [lowerBound, if_pos rfl]
    constructor
    · intro _ m hm
      simp at hm
    · intro _
      omega
  | case2 first len hlen hlt ih =>
    rw [List.forall_mem_cons, ← ih (by omega) (by omega), lowerBound, if_neg hlen]
    split_ifs with hmid
    · simp [hmid, hlt]
    · have hbound := (lowerBound_bounds a d first (len / 2)).2
      constructor
      · intro heq
        omega
      · intro hall
        exact absurd (hall.1.mpr hlt) hmid
  | case3 first len hlen hle ih =>
    rw [List.forall_mem_cons, ← ih hfirst (by omega), lowerBound, if_neg hlen]
    split_ifs with hmid
    · have hbound := (lowerBound_bounds a d (first + len / 2 + 1) (len - len / 2 - 1)).1
      constructor
      · intro heq
        omega
      · intro hall
        exact absurd (hall.1.mp hmid) hle
    · simp [hmid, hle]

/-- The search finds what it can meet, sorted or not. -/
theorem binarySearch_iff (h : first ≤ last) :
    binarySearch a first last d = true ↔ Met a first last d := by
  have hbound := lowerBound_bounds a d first (last - first)
  rw [binarySearch, decide_eq_true_iff]
  constructor
  · rintro ⟨hne, hnlt⟩
    have hle : d ≤ a (lowerBound a d first (last - first)) := le_lowerBound (by omega)
    refine ⟨_, hbound.1, by omega, le_antisymm (not_lt.mp hnlt) hle, ?_⟩
    exact (lowerBound_eq_iff hbound.1 hbound.2).mp rfl
  · rintro ⟨i, hfirst, hlast, hai, hmid⟩
    rw [(lowerBound_eq_iff hfirst (by omega)).mpr hmid, hai]
    exact ⟨by omega, lt_irrefl d⟩

theorem Met.exists_eq (h : Met a first last d) : ∃ i, first ≤ i ∧ i < last ∧ a i = d := by
  obtain ⟨i, hfirst, hlast, hai, _⟩ := h
  exact ⟨i, hfirst, hlast, hai⟩

theorem mem_midpoints (hm : m ∈ midpoints first len i) : first ≤ m ∧ m < first + len := by
  fun_induction midpoints first len i with
  | case1 first => simp at hm
  | case2 first len hlen hlt ih =>
    rcases List.mem_cons.mp hm with rfl | hm
    · omega
    · have hrange := ih hm
      omega
  | case3 first len hlen hle ih =>
    rcases List.mem_cons.mp hm with rfl | hm
    · omega
    · have hrange := ih hm
      omega

/-- In a sorted range every entry is met, at its first occurrence. -/
theorem met_of_sorted (hsorted : ∀ j k, first ≤ j → j ≤ k → k < last → a j ≤ a k)
    (hi : first ≤ i) (hlast : i < last) : Met a first last (a i) := by
  classical
  have hex : ∃ k, first ≤ k ∧ k < last ∧ a k = a i := ⟨i, hi, hlast, rfl⟩
  obtain ⟨hk, hkl, hak⟩ := Nat.find_spec hex
  refine ⟨Nat.find hex, hk, hkl, hak, fun m hm => ?_⟩
  have hrange := mem_midpoints hm
  constructor
  · intro hlt
    by_contra hge
    have hle := hsorted _ _ hk (not_lt.mp hge) (show m < last by omega)
    rw [hak] at hle
    exact absurd hlt (not_lt.mpr hle)
  · intro hlt
    have hle := hsorted m _ hrange.1 hlt.le hkl
    rw [hak] at hle
    refine lt_of_le_of_ne hle fun heq => ?_
    exact Nat.find_min hex hlt ⟨hrange.1, by omega, heq⟩

/-- The search reads the entries of its range only. -/
theorem lowerBound_congr {b : ℕ → α} {shift : ℕ}
    (h : ∀ i, first ≤ i → i < first + len → a (shift + i) = b i) :
    lowerBound a d (shift + first) len = shift + lowerBound b d first len := by
  fun_induction lowerBound b d first len with
  | case1 first =>
    rw [lowerBound, if_pos rfl]
  | case2 first len hlen hlt ih =>
    have hmid := h (first + len / 2) (by omega) (by omega)
    have hrest := ih fun i hi hilt => h i (by omega) (by omega)
    rw [lowerBound, if_neg hlen, Nat.add_assoc, hmid, if_pos hlt]
    exact hrest
  | case3 first len hlen hle ih =>
    have hmid := h (first + len / 2) (by omega) (by omega)
    have hrest := ih fun i hi hilt => h i (by omega) (by omega)
    rw [lowerBound, if_neg hlen, Nat.add_assoc, hmid, if_neg hle]
    exact hrest

/-- Search in a whole list. -/
def searchList [Inhabited α] (l : List α) (d : α) : Bool :=
  binarySearch (fun i => l.getD i default) 0 l.length d

theorem binarySearch_eq_searchList [Inhabited α] {l : List α} (hfirst : first + l.length = last)
    (h : ∀ i < l.length, a (first + i) = l.getD i default) :
    binarySearch a first last d = searchList l d := by
  have hshift : lowerBound a d (first + 0) l.length =
      first + lowerBound (fun i => l.getD i default) d 0 l.length :=
    lowerBound_congr fun i _ hi => h i (by omega)
  have hbound := (lowerBound_bounds (fun i => l.getD i default) d 0 l.length).2
  rw [binarySearch, searchList, binarySearch, show last - first = l.length by omega]
  rw [Nat.add_zero] at hshift
  rw [hshift, Nat.sub_zero, decide_eq_decide]
  by_cases hend : lowerBound (fun i => l.getD i default) d 0 l.length = l.length
  · rw [hend]
    simp [hfirst]
  · rw [h _ (by omega)]
    have hne : first + lowerBound (fun i => l.getD i default) d 0 l.length ≠ last := by omega
    simp only [ne_eq, hend, hne]

/-- In a sorted list the search finds the members. -/
theorem searchList_of_sorted [Inhabited α] {l : List α} (h : l.Pairwise (· ≤ ·)) :
    searchList l d = true ↔ d ∈ l := by
  have hget {i : ℕ} (hi : i < l.length) : l.getD i default = l[i] := by simp [hi]
  rw [searchList, binarySearch_iff (Nat.zero_le _)]
  constructor
  · intro hmet
    obtain ⟨i, _, hi, rfl⟩ := hmet.exists_eq
    rw [hget hi]
    exact List.getElem_mem hi
  · intro hmem
    obtain ⟨i, hi, rfl⟩ := List.getElem_of_mem hmem
    have hsorted (j k : ℕ) (_ : 0 ≤ j) (hjk : j ≤ k) (hk : k < l.length) :
        l.getD j default ≤ l.getD k default := by
      rw [hget hk, hget (hjk.trans_lt hk)]
      rcases Nat.lt_or_eq_of_le hjk with hlt | rfl
      · exact List.pairwise_iff_getElem.mp h j k _ hk hlt
      · exact le_rfl
    have hmet := met_of_sorted hsorted (Nat.zero_le i) hi
    rwa [hget hi] at hmet

end BinarySearch
