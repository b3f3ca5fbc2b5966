import Mathlib.Algebra.BigOperators.Group.Finset.Basic
import Mathlib.Algebra.Order.BigOperators.Group.Finset
import Mathlib.Algebra.Order.Field.Basic
import Mathlib.Logic.Relation
import Mathlib.Tactic

/-! Optimistic reservation. Threads add amounts to shared totals first and look at the capacity
afterwards: an amount whose observed total exceeds the capacity is withdrawn again, the others are
kept. Capacities may grow at any time. -/
namespace Reservation

/-- Where a thread stands in one attempt on the resource `i`. -/
inductive Pc (ι K : Type*) where
  | idle
  | reserving (i : ι) (amount : K)
  | comparing (i : ι) (amount seen : K)
  | withdrawing (i : ι) (amount seen : K)
  | committing (i : ι) (amount seen : K)

namespace Pc
variable {ι K : Type*}

/-- The thread's amount is positive. -/
def Positive [Zero K] [LT K] : Pc ι K → Prop
  | idle => True
  | reserving _ d | comparing _ d _ | withdrawing _ d _ | committing _ d _ => 0 < d

/-- The thread has added an amount to the total of `i` and not settled it yet. -/
def Holds (i : ι) : Pc ι K → Prop
  | comparing j _ _ | withdrawing j _ _ | committing j _ _ => j = i
  | _ => False

/-- The thread has decided to try for `i`. -/
def Engaged (i : ι) : Pc ι K → Prop
  | reserving j _ | comparing j _ _ | withdrawing j _ _ | committing j _ _ => j = i
  | idle => False

/-- The thread tries to reserve the amount `d` of `i`. -/
def Wants (i : ι) (d : K) : Pc ι K → Prop
  | reserving j e | comparing j e _ | withdrawing j e _ | committing j e _ => j = i ∧ e = d
  | idle => False

/-- Under the capacity `x` the thread will keep its amount. -/
def Keeps [LE K] (i : ι) (x : K) : Pc ι K → Prop
  | comparing j _ seen | committing j _ seen => j = i ∧ seen ≤ x
  | _ => False

theorem Holds.engaged {i : ι} {p : Pc ι K} (h : p.Holds i) : p.Engaged i := by
  cases p <;> first | exact h | exact h.elim

theorem Keeps.holds [LE K] {i : ι} {x : K} {p : Pc ι K} (h : p.Keeps i x) : p.Holds i := by
  cases p <;> first | exact h.1 | exact h.elim

theorem Keeps.mono [Preorder K] {i : ι} {x y : K} {p : Pc ι K} (h : p.Keeps i x) (hxy : x ≤ y) :
    p.Keeps i y := by
  cases p <;> first | exact ⟨h.1, h.2.trans hxy⟩ | exact h.elim

variable [DecidableEq ι]

/-- The amount a thread has added to the total of `i` and not settled yet. -/
def outstanding [Zero K] (i : ι) : Pc ι K → K
  | comparing j d _ | withdrawing j d _ | committing j d _ => if j = i then d else 0
  | _ => 0

/-- The part of it that may still be kept and was observed under a total of at most `x`. -/
def under [Zero K] [LE K] [DecidableLE K] (i : ι) (x : K) : Pc ι K → K
  | comparing j d seen | committing j d seen => if j = i ∧ seen ≤ x then d else 0
  | _ => 0

variable [AddCommGroup K] {p : Pc ι K}

theorem outstanding_of_not_holds {i : ι} (h : ¬ p.Holds i) : p.outstanding i = 0 := by
  cases p <;> first | rfl | exact if_neg h

variable [LinearOrder K]

theorem outstanding_nonneg (hp : p.Positive) (i : ι) : 0 ≤ p.outstanding i := by
  cases p <;> simp only [outstanding, le_refl] <;> split_ifs <;>
    first | exact le_of_lt hp | exact le_rfl

theorem under_le_outstanding (hp : p.Positive) (i : ι) (x : K) :
    p.under i x ≤ p.outstanding i := by
  have hn := outstanding_nonneg hp i
  cases p <;> simp only [under] <;> first | exact hn | skip
  all_goals
    split_ifs with h
    · simp [outstanding, h.1]
    · exact hn

theorem under_mono (hp : p.Positive) (i : ι) {x y : K} (hxy : x ≤ y) :
    p.under i x ≤ p.under i y := by
  cases p <;> simp only [under, le_refl]
  all_goals
    split_ifs with hx hy hy
    · exact le_rfl
    · exact absurd ⟨hx.1, hx.2.trans hxy⟩ hy
    · exact le_of_lt hp
    · exact le_rfl

end Pc

structure Pool (ι τ K : Type*) where
  cap : ι → K
  reserved : ι → K
  pc : τ → Pc ι K

namespace Pool
variable {ι τ K : Type*} [DecidableEq ι] [DecidableEq τ]

def setPc (s : Pool ι τ K) (t : τ) (p : Pc ι K) : Pool ι τ K :=
  { s with pc := Function.update s.pc t p }

def add [Add K] (s : Pool ι τ K) (i : ι) (d : K) : Pool ι τ K :=
  { s with reserved := Function.update s.reserved i (s.reserved i + d) }

def grow [Add K] (s : Pool ι τ K) (i : ι) (x : K) : Pool ι τ K :=
  { s with cap := Function.update s.cap i (s.cap i + x) }

end Pool

section Steps
variable {ι τ K : Type*} [DecidableEq ι] [AddCommGroup K]

/-- The amounts that are still undecided. -/
def Pool.outstanding [Fintype τ] (s : Pool ι τ K) (i : ι) : K := ∑ t, (s.pc t).outstanding i

/-- The total without the amounts that are still undecided. -/
def Pool.settled [Fintype τ] (s : Pool ι τ K) (i : ι) : K := s.reserved i - s.outstanding i

variable [LinearOrder K]

def Pool.under [Fintype τ] (s : Pool ι τ K) (i : ι) (x : K) : K := ∑ t, (s.pc t).under i x

/-- Some thread is going to keep an amount of `i`. -/
def Pool.Good (s : Pool ι τ K) (i : ι) : Prop := ∃ t, (s.pc t).Keeps i (s.cap i)

/-- Something of `i` was kept, or a thread is still trying. -/
def Pool.Live [Fintype τ] (r₀ : ι → K) (s : Pool ι τ K) (i : ι) : Prop :=
  r₀ i < s.settled i ∨ ∃ t, (s.pc t).Engaged i

/-- What holds in every state reached from capacities `c₀`, totals `r₀` and idle threads. -/
structure Inv [Fintype τ] (c₀ r₀ : ι → K) (s : Pool ι τ K) : Prop where
  positive : ∀ t, (s.pc t).Positive
  cap_ge : ∀ i, c₀ i ≤ s.cap i
  settled_ge : ∀ i, r₀ i ≤ s.settled i
  approved : ∀ {t i d seen}, s.pc t = .committing i d seen → seen ≤ s.cap i
  bound : ∀ i x, s.settled i + s.under i x ≤ max x (max (s.cap i) (r₀ i))
  fresh : ∀ {t i d}, s.pc t = .reserving i d → d ≤ s.cap i - r₀ i
  first : ∀ {i}, s.settled i = r₀ i → (∃ t, (s.pc t).Holds i) → s.Good i

/-- The atomic steps of the threads, and the growth of a capacity. -/
inductive Step [DecidableEq τ] : Pool ι τ K → Pool ι τ K → Prop
  | observe {s : Pool ι τ K} {t : τ} {i : ι} {d : K} (hpc : s.pc t = .idle) (hpos : 0 < d)
      (hd : d ≤ s.cap i - s.reserved i) : Step s (s.setPc t (.reserving i d))
  | reserve {s : Pool ι τ K} {t : τ} {i : ι} {d : K} (hpc : s.pc t = .reserving i d) :
      Step s ((s.add i d).setPc t (.comparing i d (s.reserved i + d)))
  | compare {s : Pool ι τ K} {t : τ} {i : ι} {d seen : K} (hpc : s.pc t = .comparing i d seen) :
      Step s (s.setPc t
        (if s.cap i < seen then .withdrawing i d seen else .committing i d seen))
  | withdraw {s : Pool ι τ K} {t : τ} {i : ι} {d seen : K}
      (hpc : s.pc t = .withdrawing i d seen) : Step s ((s.add i (-d)).setPc t .idle)
  | commit {s : Pool ι τ K} {t : τ} {i : ι} {d seen : K} (hpc : s.pc t = .committing i d seen) :
      Step s (s.setPc t .idle)
  | grow {s : Pool ι τ K} {i : ι} {x : K} (hx : 0 ≤ x) : Step s (s.grow i x)

end Steps

section Sums
variable {ι τ K : Type*} [AddCommGroup K] [Fintype τ] [DecidableEq τ]

/-- Replacing one thread exchanges its summand. -/
theorem sum_update (f : Pc ι K → K) (pc : τ → Pc ι K) (t : τ) (p : Pc ι K) :
    ∑ u, f (Function.update pc t p u) = ∑ u, f (pc u) - f (pc t) + f p := by
  rw [← Finset.add_sum_erase _ _ (Finset.mem_univ t),
    ← Finset.add_sum_erase _ (fun u => f (pc u)) (Finset.mem_univ t), Function.update_self]
  have hrest : ∑ u ∈ Finset.univ.erase t, f (Function.update pc t p u) =
      ∑ u ∈ Finset.univ.erase t, f (pc u) :=
    Finset.sum_congr rfl fun u hu => by rw [Function.update_of_ne (Finset.ne_of_mem_erase hu)]
  rw [hrest]
  abel

end Sums

namespace Pool
variable {ι τ K : Type*} {s : Pool ι τ K}

section Update
variable [DecidableEq τ]

@[simp] theorem setPc_pc_self (t : τ) (p : Pc ι K) : (s.setPc t p).pc t = p :=
  Function.update_self ..

theorem setPc_pc_of_ne {t u : τ} (p : Pc ι K) (h : u ≠ t) : (s.setPc t p).pc u = s.pc u :=
  Function.update_of_ne h ..

@[simp] theorem setPc_cap (t : τ) (p : Pc ι K) : (s.setPc t p).cap = s.cap := rfl

@[simp] theorem setPc_reserved (t : τ) (p : Pc ι K) : (s.setPc t p).reserved = s.reserved := rfl

/-- A thread that keeps its amount goes on keeping it when another thread moves. -/
theorem good_setPc [LinearOrder K] {t : τ} {p : Pc ι K} {i : ι} (hg : s.Good i)
    (ht : ¬ (s.pc t).Keeps i (s.cap i)) : (s.setPc t p).Good i := by
  obtain ⟨u, hu⟩ := hg
  have hne : u ≠ t := fun hut => ht (hut ▸ hu)
  exact ⟨u, by rwa [setPc_pc_of_ne p hne]⟩

theorem holds_of_setPc {t : τ} {p : Pc ι K} {i : ι}
    (h : ∃ u, ((s.setPc t p).pc u).Holds i) (hp : p.Holds i → (s.pc t).Holds i) :
    ∃ u, (s.pc u).Holds i := by
  obtain ⟨u, hu⟩ := h
  by_cases hut : u = t
  · subst hut
    exact ⟨u, hp (by simpa using hu)⟩
  · exact ⟨u, by rwa [setPc_pc_of_ne p hut] at hu⟩

theorem engaged_setPc {t : τ} {p : Pc ι K} {i : ι} (h : ∃ u, (s.pc u).Engaged i)
    (hp : (s.pc t).Engaged i → p.Engaged i) : ∃ u, ((s.setPc t p).pc u).Engaged i := by
  obtain ⟨u, hu⟩ := h
  by_cases hut : u = t
  · subst hut
    exact ⟨u, by simpa using hp hu⟩
  · exact ⟨u, by rwa [setPc_pc_of_ne p hut]⟩

theorem pc_of_setPc {t u : τ} {p q : Pc ι K} (h : (s.setPc t p).pc u = q) (hpq : p ≠ q) :
    s.pc u = q := by
  by_cases hut : u = t
  · subst hut
    exact absurd (by simpa using h) hpq
  · rwa [setPc_pc_of_ne p hut] at h

theorem positive_setPc [Zero K] [LT K] {t : τ} {p : Pc ι K} (h : ∀ t, (s.pc t).Positive) (hp : p.Positive)
    (u : τ) : ((s.setPc t p).pc u).Positive := by
  by_cases hut : u = t
  · subst hut
    simpa using hp
  · rw [setPc_pc_of_ne p hut]
    exact h u

end Update

variable [DecidableEq ι] [AddCommGroup K]

@[simp] theorem add_cap (i : ι) (d : K) : (s.add i d).cap = s.cap := rfl

@[simp] theorem add_pc (i : ι) (d : K) : (s.add i d).pc = s.pc := rfl

theorem add_reserved (i j : ι) (d : K) :
    (s.add i d).reserved j = s.reserved j + if i = j then d else 0 := by
  by_cases h : i = j
  · subst h
    simp [add]
  · simp [add, h, Ne.symm h]

theorem grow_cap (i j : ι) (x : K) :
    (s.grow i x).cap j = s.cap j + if i = j then x else 0 := by
  by_cases h : i = j
  · subst h
    simp [grow]
  · simp [grow, h, Ne.symm h]

variable [Fintype τ]

section Replace
variable [DecidableEq τ]

theorem setPc_outstanding (t : τ) (p : Pc ι K) (i : ι) : (s.setPc t p).outstanding i =
    s.outstanding i - (s.pc t).outstanding i + p.outstanding i :=
  sum_update (fun p => p.outstanding i) s.pc t p

theorem setPc_under [LinearOrder K] (t : τ) (p : Pc ι K) (i : ι) (x : K) : (s.setPc t p).under i x =
    s.under i x - (s.pc t).under i x + p.under i x :=
  sum_update (fun p => p.under i x) s.pc t p

theorem setPc_settled (t : τ) (p : Pc ι K) (i : ι) : (s.setPc t p).settled i =
    s.settled i + (s.pc t).outstanding i - p.outstanding i := by
  rw [settled, setPc_outstanding, settled, setPc_reserved]
  abel

end Replace

@[simp] theorem add_outstanding (i j : ι) (d : K) : (s.add i d).outstanding j = s.outstanding j :=
  rfl

@[simp] theorem add_under [LinearOrder K] (i j : ι) (d x : K) : (s.add i d).under j x = s.under j x := rfl

theorem add_settled (i j : ι) (d : K) :
    (s.add i d).settled j = s.settled j + if i = j then d else 0 := by
  rw [settled, add_outstanding, add_reserved, settled]
  abel

section Settled
variable [DecidableEq τ] {t : τ} {i : ι} {d seen : K}

theorem observe_settled (hpc : s.pc t = .idle) (j : ι) :
    (s.setPc t (.reserving i d)).settled j = s.settled j := by
  simp [setPc_settled, hpc, Pc.outstanding]

theorem reserve_settled (hpc : s.pc t = .reserving i d) (j : ι) :
    ((s.add i d).setPc t (.comparing i d seen)).settled j = s.settled j := by
  rw [setPc_settled, add_settled, add_pc, hpc]
  by_cases hij : i = j <;> simp [Pc.outstanding, hij]

theorem compare_settled (hpc : s.pc t = .comparing i d seen) (c : Prop) [Decidable c] (j : ι) :
    (s.setPc t (if c then .withdrawing i d seen else .committing i d seen)).settled j =
      s.settled j := by
  rw [setPc_settled, hpc]
  split_ifs <;> simp [Pc.outstanding]

theorem withdraw_settled (hpc : s.pc t = .withdrawing i d seen) (j : ι) :
    ((s.add i (-d)).setPc t .idle).settled j = s.settled j := by
  rw [setPc_settled, add_settled, add_pc, hpc]
  by_cases hij : i = j <;> simp [Pc.outstanding, hij]

theorem commit_settled (hpc : s.pc t = .committing i d seen) (j : ι) :
    (s.setPc t .idle).settled j = s.settled j + if i = j then d else 0 := by
  simp [setPc_settled, hpc, Pc.outstanding]

end Settled

/-- Without outstanding amounts everything is settled. -/
theorem outstanding_eq_zero {i : ι} (h : ∀ t, ¬ (s.pc t).Holds i) : s.outstanding i = 0 :=
  Finset.sum_eq_zero fun t _ => Pc.outstanding_of_not_holds (h t)

theorem settled_eq_reserved {i : ι} (h : ∀ t, ¬ (s.pc t).Holds i) :
    s.settled i = s.reserved i := by
  rw [settled, outstanding_eq_zero h, sub_zero]

variable [LinearOrder K] [IsOrderedAddMonoid K]

theorem outstanding_nonneg (hp : ∀ t, (s.pc t).Positive) (i : ι) : 0 ≤ s.outstanding i :=
  Finset.sum_nonneg fun t _ => Pc.outstanding_nonneg (hp t) i

theorem under_le_outstanding (hp : ∀ t, (s.pc t).Positive) (i : ι) (x : K) :
    s.under i x ≤ s.outstanding i :=
  Finset.sum_le_sum fun t _ => Pc.under_le_outstanding (hp t) i x

theorem settled_le_reserved (hp : ∀ t, (s.pc t).Positive) (i : ι) :
    s.settled i ≤ s.reserved i := sub_le_self _ (outstanding_nonneg hp i)

/-- A larger threshold counts at least the thread's own amount more. -/
theorem under_add_le [DecidableEq τ] {t : τ} {x y : K} {i : ι} (hp : ∀ t, (s.pc t).Positive) (hxy : x ≤ y) :
    s.under i x - (s.pc t).under i x + (s.pc t).under i y ≤ s.under i y := by
  have h := Finset.sum_le_sum fun u (_ : u ∈ Finset.univ.erase t) =>
    Pc.under_mono (hp u) i hxy
  rw [under, under, ← Finset.add_sum_erase _ _ (Finset.mem_univ t),
    ← Finset.add_sum_erase _ (fun u => (s.pc u).under i y) (Finset.mem_univ t),
    add_sub_cancel_left, add_comm]
  exact add_le_add_right h _

end Pool

section Invariant
variable {ι τ K : Type*} [DecidableEq ι] [Fintype τ] [Field K] [LinearOrder K] {c₀ r₀ : ι → K}
  {s s' : Pool ι τ K}

theorem inv_of_idle (h : ∀ t, s.pc t = .idle) : Inv s.cap s.reserved s := by
  have hno (i : ι) (t : τ) : ¬ (s.pc t).Holds i := by simp [h, Pc.Holds]
  have hs (i : ι) : s.settled i = s.reserved i := Pool.settled_eq_reserved (hno i)
  have hu (i : ι) (x : K) : s.under i x = 0 := by simp [Pool.under, h, Pc.under]
  refine ⟨fun t => by simp [h, Pc.Positive], fun _ => le_rfl, fun i => (hs i).ge,
    fun ht => by simp [h] at ht, fun i x => ?_, fun ht => by simp [h] at ht, ?_⟩
  · rw [hs, hu, add_zero]
    exact le_max_of_le_right (le_max_right _ _)
  · rintro i - ⟨t, ht⟩
    exact absurd ht (hno i t)

theorem Inv.positive_amount (h : Inv c₀ r₀ s) {t : τ} {p : Pc ι K} (hpc : s.pc t = p) :
    p.Positive := hpc ▸ h.positive t

variable [IsStrictOrderedRing K]

theorem Inv.reserved_ge (h : Inv c₀ r₀ s) (i : ι) : r₀ i ≤ s.reserved i :=
  (h.settled_ge i).trans (Pool.settled_le_reserved h.positive i)

variable [DecidableEq τ]

theorem Inv.observe (h : Inv c₀ r₀ s) {t : τ} {i : ι} {d : K} (hpc : s.pc t = .idle)
    (hpos : 0 < d) (hd : d ≤ s.cap i - s.reserved i) : Inv c₀ r₀ (s.setPc t (.reserving i d)) := by
  have hs := Pool.observe_settled (i := i) (d := d) hpc
  have hu (j : ι) (x : K) : (s.setPc t (.reserving i d)).under j x = s.under j x := by
    simp [Pool.setPc_under, hpc, Pc.under]
  refine ⟨Pool.positive_setPc h.positive hpos, h.cap_ge, fun j => hs j ▸ h.settled_ge j,
    fun hc => h.approved (Pool.pc_of_setPc hc nofun), fun j x => by rw [hs, hu]; exact h.bound j x,
    ?_, ?_⟩
  · intro u j e hu
    by_cases hut : u = t
    · subst hut
      obtain ⟨rfl, rfl⟩ : i = j ∧ d = e := by simpa using hu
      have hr := h.reserved_ge i
      simp only [Pool.setPc_cap]
      linarith
    · rw [Pool.setPc_pc_of_ne _ hut] at hu
      exact h.fresh hu
  · intro j hj hh
    refine Pool.good_setPc (h.first (hs j ▸ hj) (Pool.holds_of_setPc hh nofun)) ?_
    simp [hpc, Pc.Keeps]

theorem Inv.reserve (h : Inv c₀ r₀ s) {t : τ} {i : ι} {d : K} (hpc : s.pc t = .reserving i d) :
    Inv c₀ r₀ ((s.add i d).setPc t (.comparing i d (s.reserved i + d))) := by
  set s' := (s.add i d).setPc t (.comparing i d (s.reserved i + d)) with hs'
  have hpos : 0 < d := h.positive_amount hpc
  have hs (j : ι) : s'.settled j = s.settled j := Pool.reserve_settled hpc j
  have hp := Pool.positive_setPc (s := s.add i d) (t := t) (p := .comparing i d (s.reserved i + d))
    h.positive hpos
  refine ⟨hp, h.cap_ge, fun j => hs j ▸ h.settled_ge j,
    fun hc => h.approved (Pool.pc_of_setPc (s := s.add i d) hc nofun), fun j x => ?_,
    fun hf => h.fresh (Pool.pc_of_setPc (s := s.add i d) hf nofun), ?_⟩
  · have hu : s'.under j x = s.under j x + if i = j ∧ s.reserved i + d ≤ x then d else 0 := by
      rw [hs', Pool.setPc_under, Pool.add_under, Pool.add_pc, hpc]
      simp [Pc.under]
    rw [hs, hu]
    split_ifs with hx
    · obtain ⟨rfl, hx⟩ := hx
      have hle := Pool.under_le_outstanding h.positive i x
      have hsum : s.settled i + s.under i x + d ≤ x := by
        have hdef : s.settled i = s.reserved i - s.outstanding i := rfl
        linarith
      exact le_max_of_le_left (by linarith)
    · rw [add_zero]
      exact h.bound j x
  · intro j hj hh
    by_cases hex : ∃ u, (s.pc u).Holds j
    · exact Pool.good_setPc (s := s.add i d) (h.first (hs j ▸ hj) hex) (by simp [hpc, Pc.Keeps])
    · have hno := not_exists.mp hex
      obtain rfl : i = j := by
        by_contra hij
        exact hex (Pool.holds_of_setPc (s := s.add i d) hh fun hp => absurd hp hij)
      have hr : s.reserved i = r₀ i := by
        rw [← Pool.settled_eq_reserved hno, ← hs i, hj]
      have hf := h.fresh hpc
      refine ⟨t, ?_⟩
      rw [hs', Pool.setPc_pc_self]
      refine ⟨rfl, ?_⟩
      simp only [Pool.setPc_cap, Pool.add_cap]
      linarith

theorem Inv.compare (h : Inv c₀ r₀ s) {t : τ} {i : ι} {d seen : K}
    (hpc : s.pc t = .comparing i d seen) : Inv c₀ r₀ (s.setPc t
      (if s.cap i < seen then .withdrawing i d seen else .committing i d seen)) := by
  have hpos : 0 < d := h.positive_amount hpc
  have hs := Pool.compare_settled hpc (s.cap i < seen)
  split_ifs at hs ⊢ with hc
  · refine ⟨Pool.positive_setPc h.positive hpos, h.cap_ge, fun j => hs j ▸ h.settled_ge j,
      fun ha => h.approved (Pool.pc_of_setPc ha nofun), fun j x => ?_,
      fun hf => h.fresh (Pool.pc_of_setPc hf nofun), ?_⟩
    · have hb := h.bound j x
      have hu : 0 ≤ (s.pc t).under j x := by
        rw [hpc]
        simp only [Pc.under]
        split_ifs <;> linarith
      rw [hs, Pool.setPc_under, Pool.setPc_cap]
      have hw : (Pc.withdrawing i d seen).under j x = 0 := rfl
      rw [hw]
      linarith
    · intro j hj hh
      refine Pool.good_setPc (h.first (hs j ▸ hj) (Pool.holds_of_setPc hh ?_)) ?_
      · intro hp
        rwa [hpc]
      · rw [hpc]
        rintro ⟨rfl, hle⟩
        exact absurd hle (not_le.mpr hc)
  · have hu (j : ι) (x : K) : (s.setPc t (.committing i d seen)).under j x = s.under j x := by
      simp [Pool.setPc_under, hpc, Pc.under]
    refine ⟨Pool.positive_setPc h.positive hpos, h.cap_ge, fun j => hs j ▸ h.settled_ge j, ?_,
      fun j x => by rw [hs, hu]; exact h.bound j x, fun hf => h.fresh (Pool.pc_of_setPc hf nofun), ?_⟩
    · intro u j e seen' ha
      by_cases hut : u = t
      · subst hut
        obtain ⟨rfl, rfl, rfl⟩ : i = j ∧ d = e ∧ seen = seen' := by simpa using ha
        exact not_lt.mp hc
      · rw [Pool.setPc_pc_of_ne _ hut] at ha
        exact h.approved ha
    · intro j hj hh
      obtain ⟨u, hk⟩ := h.first (hs j ▸ hj) (Pool.holds_of_setPc hh fun hp => by rwa [hpc])
      by_cases hut : u = t
      · subst hut
        rw [hpc] at hk
        exact ⟨u, by simpa [Pc.Keeps] using hk⟩
      · exact ⟨u, by rwa [Pool.setPc_pc_of_ne _ hut]⟩

omit [IsStrictOrderedRing K] in
theorem Inv.withdraw (h : Inv c₀ r₀ s) {t : τ} {i : ι} {d seen : K}
    (hpc : s.pc t = .withdrawing i d seen) : Inv c₀ r₀ ((s.add i (-d)).setPc t .idle) := by
  set s' := (s.add i (-d)).setPc t .idle with hs'
  have hs (j : ι) : s'.settled j = s.settled j := Pool.withdraw_settled hpc j
  have hu (j : ι) (x : K) : s'.under j x = s.under j x := by
    rw [hs', Pool.setPc_under, Pool.add_under, Pool.add_pc, hpc]
    simp [Pc.under]
  refine ⟨Pool.positive_setPc (s := s.add i (-d)) h.positive trivial, h.cap_ge,
    fun j => hs j ▸ h.settled_ge j, fun ha => h.approved (Pool.pc_of_setPc (s := s.add i (-d)) ha nofun),
    fun j x => by rw [hs, hu]; exact h.bound j x,
    fun hf => h.fresh (Pool.pc_of_setPc (s := s.add i (-d)) hf nofun), ?_⟩
  intro j hj hh
  have hex := Pool.holds_of_setPc (s := s.add i (-d)) hh fun hp => hp.elim
  exact Pool.good_setPc (s := s.add i (-d)) (h.first (hs j ▸ hj) hex) (by simp [hpc, Pc.Keeps])

theorem Inv.commit (h : Inv c₀ r₀ s) {t : τ} {i : ι} {d seen : K}
    (hpc : s.pc t = .committing i d seen) : Inv c₀ r₀ (s.setPc t .idle) := by
  have hpos : 0 < d := h.positive_amount hpc
  have hs := Pool.commit_settled hpc
  have hge (j : ι) : s.settled j ≤ (s.setPc t .idle).settled j := by
    rw [hs]
    split_ifs <;> linarith
  refine ⟨Pool.positive_setPc h.positive trivial, h.cap_ge, fun j => (h.settled_ge j).trans (hge j),
    fun ha => h.approved (Pool.pc_of_setPc ha nofun), fun j x => ?_,
    fun hf => h.fresh (Pool.pc_of_setPc hf nofun), ?_⟩
  · have hb := h.bound j x
    rw [hs, Pool.setPc_under, hpc]
    simp only [Pc.under, Pool.setPc_cap]
    by_cases hij : i = j
    · subst hij
      by_cases hx : seen ≤ x
      · simp only [hx, and_self, if_true]
        linarith
      · have hcap := h.approved hpc
        have hm := Pool.under_add_le (t := t) (i := i) h.positive (not_le.mp hx).le
        have hbs := h.bound i seen
        rw [hpc] at hm
        simp only [Pc.under, hx, and_false, if_false, le_refl, and_self, if_true] at hm ⊢
        rw [max_eq_right (le_max_of_le_left hcap)] at hbs
        exact le_max_of_le_right (by linarith)
    · simp only [hij, false_and, if_false]
      linarith
  · intro j hj hh
    have hsame : i ≠ j := by
      rintro rfl
      have := h.settled_ge i
      rw [hs, if_pos rfl] at hj
      linarith
    rw [hs, if_neg hsame, add_zero] at hj
    refine Pool.good_setPc (h.first hj (Pool.holds_of_setPc hh fun hp => hp.elim)) ?_
    rw [hpc]
    exact fun hk => hsame hk.1

omit [DecidableEq τ] in
theorem Inv.grow (h : Inv c₀ r₀ s) {i : ι} {x : K} (hx : 0 ≤ x) : Inv c₀ r₀ (s.grow i x) := by
  have hc (j : ι) : s.cap j ≤ (s.grow i x).cap j := by
    rw [Pool.grow_cap]
    split_ifs <;> linarith
  refine ⟨h.positive, fun j => (h.cap_ge j).trans (hc j), h.settled_ge,
    fun ha => (h.approved ha).trans (hc _),
    fun j y => (h.bound j y).trans (max_le_max le_rfl (max_le_max (hc j) le_rfl)),
    fun hf => (h.fresh hf).trans (sub_le_sub_right (hc _) _), fun hj hh => ?_⟩
  obtain ⟨t, ht⟩ := h.first hj hh
  exact ⟨t, ht.mono (hc _)⟩

theorem Inv.step (h : Inv c₀ r₀ s) (hstep : Step s s') : Inv c₀ r₀ s' := by
  cases hstep with
  | observe hpc hpos hd => exact h.observe hpc hpos hd
  | reserve hpc => exact h.reserve hpc
  | compare hpc => exact h.compare hpc
  | withdraw hpc => exact h.withdraw hpc
  | commit hpc => exact h.commit hpc
  | grow hx => exact h.grow hx

theorem Step.settled_le (h : Inv c₀ r₀ s) (hstep : Step s s') (i : ι) :
    s.settled i ≤ s'.settled i := by
  cases hstep with
  | observe hpc => exact (Pool.observe_settled hpc i).ge
  | reserve hpc => exact (Pool.reserve_settled hpc i).ge
  | compare hpc => exact (Pool.compare_settled hpc _ i).ge
  | withdraw hpc => exact (Pool.withdraw_settled hpc i).ge
  | @commit t j d seen hpc =>
    have hd : 0 < d := h.positive_amount hpc
    rw [Pool.commit_settled hpc]
    split_ifs <;> linarith
  | grow hx => exact le_rfl

/-- A resource someone is trying for stays live: a withdrawal leaves the thread that made the
total exceed the capacity behind, and that one commits. -/
theorem Pool.Live.step {i : ι} (hl : s.Live r₀ i) (h : Inv c₀ r₀ s) (hstep : Step s s') :
    s'.Live r₀ i := by
  rcases hl with hs | hex
  · exact Or.inl (hs.trans_le (hstep.settled_le h i))
  · cases hstep with
    | @observe t j d hpc =>
      exact Or.inr (Pool.engaged_setPc hex fun hp => by simp [hpc, Pc.Engaged] at hp)
    | @reserve t j d hpc =>
      exact Or.inr (Pool.engaged_setPc (s := s.add j d) hex fun hp => by
        simpa [hpc, Pc.Engaged] using hp)
    | @compare t j d seen hpc =>
      refine Or.inr (Pool.engaged_setPc hex fun hp => ?_)
      rw [hpc] at hp
      split_ifs <;> exact hp
    | @withdraw t j d seen hpc =>
      rcases (h.settled_ge i).lt_or_eq with hlt | heq
      · exact Or.inl (hlt.trans_le ((Step.withdraw hpc).settled_le h i))
      · by_cases hij : j = i
        · obtain ⟨u, hu⟩ := h.first heq.symm ⟨t, by rwa [hpc]⟩
          have hne : u ≠ t := by
            rintro rfl
            rw [hpc] at hu
            exact hu
          refine Or.inr ⟨u, ?_⟩
          rw [Pool.setPc_pc_of_ne _ hne]
          exact hu.holds.engaged
        · exact Or.inr (Pool.engaged_setPc (s := s.add j (-d)) hex fun hp =>
            absurd (by simpa [hpc, Pc.Engaged] using hp) hij)
    | @commit t j d seen hpc =>
      by_cases hij : j = i
      · have hd : 0 < d := by
          have := h.positive t
          rwa [hpc] at this
        have hge := h.settled_ge i
        refine Or.inl ?_
        rw [Pool.commit_settled hpc, if_pos hij]
        linarith
      · exact Or.inr (Pool.engaged_setPc hex fun hp =>
          absurd (by simpa [hpc, Pc.Engaged] using hp) hij)
    | grow hx => exact Or.inr hex

omit [DecidableEq τ] in
/-- While a thread has an amount outstanding, some amount is kept in the end. -/
theorem Inv.live_of_full (h : Inv c₀ r₀ s) {i : ι} (hroom : r₀ i < c₀ i)
    (hfull : s.cap i - s.reserved i ≤ 0) : s.Live r₀ i := by
  by_contra hn
  obtain ⟨hs, hidle⟩ := not_or.mp hn
  have hno (t : τ) : ¬ (s.pc t).Holds i := fun ht => hidle ⟨t, ht.engaged⟩
  have hr := Pool.settled_eq_reserved hno
  have hc := h.cap_ge i
  rw [hr] at hs
  linarith

end Invariant

section Idle
variable {ι τ K : Type*} [DecidableEq ι] [Fintype τ] [Field K] [LinearOrder K] {c₀ r₀ : ι → K}
  {s : Pool ι τ K}

/-- When every thread is idle again, nothing was lost and the larger of the capacity and the
initial total was not exceeded. -/
theorem Inv.reserved_le (h : Inv c₀ r₀ s) (hidle : ∀ t, s.pc t = .idle) (i : ι) :
    s.reserved i ≤ max (s.cap i) (r₀ i) := by
  have hb := h.bound i (s.cap i)
  have hu : s.under i (s.cap i) = 0 := by simp [Pool.under, hidle, Pc.under]
  rwa [Pool.settled_eq_reserved fun t => by simp [hidle, Pc.Holds], hu, add_zero,
    max_eq_right (le_max_left _ _)] at hb

theorem Pool.Live.kept {i : ι} (hl : s.Live r₀ i) (hidle : ∀ t, s.pc t = .idle) :
    r₀ i < s.reserved i := by
  rcases hl with hs | ⟨t, ht⟩
  · rwa [Pool.settled_eq_reserved fun t => by simp [hidle, Pc.Holds]] at hs
  · rw [hidle] at ht
    exact ht.elim

end Idle

end Reservation
