import Mathlib.Algebra.BigOperators.Group.Finset.Basic
import Mathlib.Algebra.Order.BigOperators.Group.Finset
import Mathlib.Tactic

/-! Greedy choice of elements that hit many sets of a family. The sets an element hits are cleared;
each choice is best for what remains, so `k` choices reach the `1 - (1 - 1/k)^k` share of the best. -/
namespace GreedyCover
variable {ι V : Type*} [Fintype ι] [DecidableEq V]

/-- The number of sets that contain an element. -/
def gain (F : ι → Finset V) (v : V) : ℕ := (Finset.univ.filter fun i => v ∈ F i).card

/-- The sets that contain one of the elements. -/
def hit (F : ι → Finset V) (vs : List V) : Finset ι :=
  Finset.univ.filter fun i => ∃ v ∈ vs, v ∈ F i

def clear (F : ι → Finset V) (v : V) (i : ι) : Finset V := if v ∈ F i then ∅ else F i

/-- The family with the sets cleared that the elements hit. -/
def remaining (F : ι → Finset V) (vs : List V) (i : ι) : Finset V :=
  if ∃ v ∈ vs, v ∈ F i then ∅ else F i

/-- Choices, latest first, of which each was best for what remained. -/
inductive Greedy (Best : (V → ℕ) → V → Prop) (F : ι → Finset V) : List V → Prop
  | nil : Greedy Best F []
  | cons {v : V} {vs : List V} (hvs : Greedy Best F vs) (hv : Best (gain (remaining F vs)) v) :
      Greedy Best F (v :: vs)

/-- No element hits more. -/
def Most (f : V → ℕ) (v : V) : Prop := ∀ w, f w ≤ f v

variable {F : ι → Finset V} {v w : V} {vs : List V} {i : ι}

theorem mem_hit : i ∈ hit F vs ↔ ∃ v ∈ vs, v ∈ F i := by simp [hit]

theorem gain_eq_zero (h : ∀ i, v ∉ F i) : gain F v = 0 := by simp [gain, h]

theorem gain_pos (h : v ∈ F i) : 0 < gain F v :=
  Finset.card_pos.mpr ⟨i, by simpa using h⟩

theorem gain_eq_sum (F : ι → Finset V) (v : V) : gain F v = ∑ i, if v ∈ F i then 1 else 0 := by
  rw [gain, Finset.card_filter]

/-- Taking an element out of one set lowers its own gain only. -/
theorem gain_erase [DecidableEq ι] (hv : v ∈ F i) (w : V) :
    gain (Function.update F i ((F i).erase v)) w + (if w = v then 1 else 0) = gain F w := by
  rw [gain_eq_sum, gain_eq_sum, ← Finset.add_sum_erase _ _ (Finset.mem_univ i),
    ← Finset.add_sum_erase Finset.univ (fun j => if w ∈ F j then 1 else 0) (Finset.mem_univ i)]
  have hrest : ∑ j ∈ Finset.univ.erase i,
      (if w ∈ Function.update F i ((F i).erase v) j then 1 else 0) =
      ∑ j ∈ Finset.univ.erase i, if w ∈ F j then 1 else 0 := by
    apply Finset.sum_congr rfl
    intro j hj
    rw [Function.update_of_ne (Finset.ne_of_mem_erase hj)]
  rw [hrest, Function.update_self]
  by_cases hw : w = v
  · subst hw
    simp only [Finset.notMem_erase, if_false, hv, if_true]
    omega
  · simp [hw]

omit [Fintype ι] in
@[simp] theorem remaining_nil : remaining F [] = F := by
  funext i
  simp [remaining]

omit [Fintype ι] in
theorem remaining_cons : remaining F (v :: vs) = clear (remaining F vs) v := by
  funext i
  unfold clear remaining
  by_cases hvs : ∃ w ∈ vs, w ∈ F i
  · have hcons : ∃ w ∈ v :: vs, w ∈ F i := by
      obtain ⟨w, hw, hF⟩ := hvs
      exact ⟨w, List.mem_cons_of_mem v hw, hF⟩
    rw [if_pos hvs, if_pos hcons, if_neg (Finset.notMem_empty v)]
  · by_cases hv : v ∈ F i
    · rw [if_neg hvs, if_pos ⟨v, List.mem_cons_self, hv⟩, if_pos hv]
    · have hcons : ¬ ∃ w ∈ v :: vs, w ∈ F i := by
        rintro ⟨w, hw, hF⟩
        rcases List.mem_cons.mp hw with rfl | hw
        · exact hv hF
        · exact hvs ⟨w, hw, hF⟩
      rw [if_neg hvs, if_neg hcons, if_neg hv]

omit [Fintype ι] in
theorem mem_remaining : v ∈ remaining F vs i ↔ v ∈ F i ∧ ∀ w ∈ vs, w ∉ F i := by
  unfold remaining
  split_ifs with h
  · obtain ⟨w, hw, hF⟩ := h
    constructor
    · intro hv
      exact absurd hv (Finset.notMem_empty v)
    · rintro ⟨_, hn⟩
      exact absurd hF (hn w hw)
  · constructor
    · intro hv
      exact ⟨hv, fun w hw hF => h ⟨w, hw, hF⟩⟩
    · exact And.left

/-- A choice hits as many new sets as its gain says. -/
theorem card_hit_cons (F : ι → Finset V) (v : V) (vs : List V) :
    (hit F (v :: vs)).card = (hit F vs).card + gain (remaining F vs) v := by
  classical
  have hdisj : Disjoint (hit F vs) (Finset.univ.filter fun i => v ∈ remaining F vs i) := by
    rw [Finset.disjoint_left]
    intro i hi hv
    obtain ⟨w, hw, hF⟩ := mem_hit.mp hi
    exact (mem_remaining.mp (Finset.mem_filter.mp hv).2).2 w hw hF
  have hunion : hit F (v :: vs) =
      hit F vs ∪ Finset.univ.filter fun i => v ∈ remaining F vs i := by
    ext i
    rw [Finset.mem_union, mem_hit, mem_hit, Finset.mem_filter, mem_remaining]
    constructor
    · rintro ⟨w, hw, hF⟩
      by_cases hvs : ∃ u ∈ vs, u ∈ F i
      · exact Or.inl hvs
      · rcases List.mem_cons.mp hw with rfl | hw
        · exact Or.inr ⟨Finset.mem_univ i, hF, fun u hu hFu => hvs ⟨u, hu, hFu⟩⟩
        · exact absurd ⟨w, hw, hF⟩ hvs
    · rintro (⟨w, hw, hF⟩ | ⟨_, hF, _⟩)
      · exact ⟨w, List.mem_cons_of_mem v hw, hF⟩
      · exact ⟨v, List.mem_cons_self, hF⟩
  rw [hunion, Finset.card_union_of_disjoint hdisj, gain]

theorem card_hit_le_sum (F : ι → Finset V) (ts : List V) :
    (hit F ts).card ≤ (ts.map (gain F)).sum := by
  induction ts with
  | nil => simp [hit]
  | cons t ts ih =>
    have hcons := card_hit_cons F t ts
    have hle : gain (remaining F ts) t ≤ gain F t := by
      apply Finset.card_le_card
      intro i hi
      rw [Finset.mem_filter, mem_remaining] at hi
      exact Finset.mem_filter.mpr ⟨hi.1, hi.2.1⟩
    rw [List.map_cons, List.sum_cons]
    omega

/-- Any elements hit what is hit already and, beyond it, at most the sum of their gains. -/
theorem card_hit_le (F : ι → Finset V) (vs ts : List V) :
    (hit F ts).card ≤ (hit F vs).card + (ts.map (gain (remaining F vs))).sum := by
  classical
  have hsub : hit F ts ⊆ hit F vs ∪ hit (remaining F vs) ts := by
    intro i hi
    obtain ⟨t, ht, hF⟩ := mem_hit.mp hi
    by_cases hvs : i ∈ hit F vs
    · exact Finset.mem_union_left _ hvs
    · apply Finset.mem_union_right
      apply mem_hit.mpr
      exact ⟨t, ht, mem_remaining.mpr ⟨hF, fun u hu hFu => hvs (mem_hit.mpr ⟨u, hu, hFu⟩)⟩⟩
  have hcard := (Finset.card_le_card hsub).trans (Finset.card_union_le _ _)
  exact hcard.trans (Nat.add_le_add_left (card_hit_le_sum _ ts) _)

/-- The best of at most `k` elements leads by at most `k` times the gain of a best choice. -/
theorem card_hit_le_of_most (hv : Most (gain (remaining F vs)) v) {ts : List V} {k : ℕ}
    (hk : ts.length ≤ k) : (hit F ts).card ≤ (hit F vs).card + k * gain (remaining F vs) v := by
  have hsum : (ts.map (gain (remaining F vs))).sum ≤ ts.length * gain (remaining F vs) v := by
    have hle := List.sum_le_card_nsmul (ts.map (gain (remaining F vs)))
      (gain (remaining F vs) v) fun x hx => by
        obtain ⟨w, _, rfl⟩ := List.mem_map.mp hx
        exact hv w
    simpa using hle
  have hmul := Nat.mul_le_mul_right (gain (remaining F vs) v) hk
  have hle := card_hit_le F vs ts
  omega

/-- After `j` choices at most the `(1 - 1/k)^j` share of the best is missing. -/
theorem Greedy.missing_le (h : Greedy Most F vs) {ts : List V} {k : ℕ} (hk : ts.length ≤ k)
    (hpos : 1 ≤ k) :
    (k : ℤ) ^ vs.length * ((hit F ts).card - (hit F vs).card) ≤
      ((k : ℤ) - 1) ^ vs.length * (hit F ts).card := by
  have hk1 : (0 : ℤ) ≤ k - 1 := by
    have hcast : (1 : ℤ) ≤ k := by exact_mod_cast hpos
    omega
  induction h with
  | nil => simp [hit]
  | @cons v vs _ hv ih =>
    have hlead : ((hit F ts).card : ℤ) - (hit F vs).card ≤ k * gain (remaining F vs) v := by
      have hle := card_hit_le_of_most hv hk
      zify at hle
      omega
    have hcons : ((hit F (v :: vs)).card : ℤ) = (hit F vs).card + gain (remaining F vs) v := by
      exact_mod_cast card_hit_cons F v vs
    have hstep : (k : ℤ) * ((hit F ts).card - (hit F (v :: vs)).card) ≤
        (k - 1) * ((hit F ts).card - (hit F vs).card) := by
      rw [hcons]
      linarith
    calc (k : ℤ) ^ (v :: vs).length * ((hit F ts).card - (hit F (v :: vs)).card)
        = k ^ vs.length * (k * ((hit F ts).card - (hit F (v :: vs)).card)) := by
          rw [List.length_cons, pow_succ]
          ring
      _ ≤ k ^ vs.length * ((k - 1) * ((hit F ts).card - (hit F vs).card)) :=
          mul_le_mul_of_nonneg_left hstep (by positivity)
      _ = (k - 1) * (k ^ vs.length * ((hit F ts).card - (hit F vs).card)) := by ring
      _ ≤ (k - 1) * ((k - 1) ^ vs.length * (hit F ts).card) := mul_le_mul_of_nonneg_left ih hk1
      _ = ((k : ℤ) - 1) ^ (v :: vs).length * (hit F ts).card := by
          rw [List.length_cons, pow_succ]
          ring

/-- `k` greedy choices hit at least the `1 - (1 - 1/k)^k` share of what any `k` elements hit. -/
theorem Greedy.bound (h : Greedy Most F vs) {ts : List V} (hk : ts.length ≤ vs.length)
    (hpos : 1 ≤ vs.length) :
    (vs.length ^ vs.length - (vs.length - 1) ^ vs.length) * (hit F ts).card ≤
      vs.length ^ vs.length * (hit F vs).card := by
  have hmissing := h.missing_le hk hpos
  have hpow : (vs.length - 1) ^ vs.length ≤ vs.length ^ vs.length :=
    Nat.pow_le_pow_left (Nat.sub_le _ 1) _
  zify [hpos, hpow]
  linarith

section Left
variable (F) (v)

/-- The number of sets that are not empty. -/
def left (F : ι → Finset V) : ℕ := (Finset.univ.filter fun i => (F i).Nonempty).card

/-- A choice takes as many sets away as its gain says. -/
theorem left_clear : left (clear F v) + gain F v = left F := by
  have hsplit := Finset.card_filter_add_card_filter_not (s := Finset.univ.filter fun i =>
    (F i).Nonempty) (fun i => v ∈ F i)
  have hgain : (Finset.univ.filter fun i => (F i).Nonempty).filter (fun i => v ∈ F i) =
      Finset.univ.filter fun i => v ∈ F i := by
    ext i
    simp only [Finset.mem_filter, Finset.mem_univ, true_and]
    exact ⟨And.right, fun hv => ⟨⟨v, hv⟩, hv⟩⟩
  have hleft : (Finset.univ.filter fun i => (F i).Nonempty).filter (fun i => v ∉ F i) =
      Finset.univ.filter fun i => (clear F v i).Nonempty := by
    ext i
    simp only [Finset.mem_filter, Finset.mem_univ, true_and]
    unfold clear
    by_cases hv : v ∈ F i <;> simp [hv]
  rw [hgain, hleft] at hsplit
  unfold left gain
  omega

theorem gain_clear_le (w : V) : gain (clear F v) w ≤ gain F w := by
  apply Finset.card_le_card
  intro i hi
  have hw : w ∈ clear F v i := (Finset.mem_filter.mp hi).2
  unfold clear at hw
  split_ifs at hw with hv
  · exact absurd hw (Finset.notMem_empty w)
  · exact Finset.mem_filter.mpr ⟨Finset.mem_univ i, hw⟩

/-- Counted by elements or by sets, the members are the same. -/
theorem sum_gain {S : Finset V} (hS : ∀ i, F i ⊆ S) : ∑ u ∈ S, gain F u = ∑ i, (F i).card := by
  simp only [gain_eq_sum]
  rw [Finset.sum_comm]
  refine Finset.sum_congr rfl fun i _ => ?_
  rw [Finset.sum_ite_mem, Finset.inter_eq_right.mpr (hS i), Finset.card_eq_sum_ones]

end Left

/-- The gain in a family that is given as a list. -/
theorem gain_get (l : List (Finset V)) (v : V) : gain l.get v = l.countP fun S => v ∈ S := by
  have hlist : l.countP (fun S => decide (v ∈ S)) =
      ((List.finRange l.length).filter fun i => v ∈ l.get i).length := by
    conv_lhs => rw [← List.map_get_finRange l]
    rw [List.countP_map, List.countP_eq_length_filter]
    rfl
  rw [hlist, gain, ← List.toFinset_card_of_nodup ((List.nodup_finRange _).filter _)]
  congr 1
  ext i
  simp

end GreedyCover
