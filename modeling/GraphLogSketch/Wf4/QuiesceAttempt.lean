import GraphLogSketch.Wf4.Quiesce
import Mathlib.Data.FinEnum

/-! The attempts of a host's threads on its sellers are an optimistic reservation pool: the bought
counters are the capacities, the sold counters the totals. -/
namespace Wf4
open Reservation

@[simp] theorem NodeData.atomicAdd_sold (n : NodeData) (x : ℚ) :
    (n.atomicAdd .sold x).sold = n.sold + x := rfl

@[simp] theorem NodeData.atomicAdd_sold_bought (n : NodeData) (x : ℚ) :
    (n.atomicAdd .sold x).bought = n.bought := rfl

@[simp] theorem NodeData.atomicAdd_bought (n : NodeData) (x : ℚ) :
    (n.atomicAdd .bought x).bought = n.bought + x := rfl

@[simp] theorem NodeData.atomicAdd_bought_sold (n : NodeData) (x : ℚ) :
    (n.atomicAdd .bought x).sold = n.sold := rfl

@[simp] theorem NodeData.atomicAdd_desired (n : NodeData) (c : Counter) (x : ℚ) :
    (n.atomicAdd c x).desired = n.desired := by cases c <;> rfl

section Modify
variable (s : HostState) (v w : GlobalNodeID) (c : Counter) (x : ℚ)

theorem modify_bought_bought :
    ((s.modify v (NodeData.atomicAdd .bought x)).data w).bought =
      (s.data w).bought + if v = w then x else 0 := by
  by_cases h : v = w
  · subst h
    simp
  · simp [HostState.modify_data_of_ne _ _ _ _ (Ne.symm h), h]

theorem modify_bought_sold :
    ((s.modify v (NodeData.atomicAdd .bought x)).data w).sold = (s.data w).sold := by
  by_cases h : w = v
  · subst h
    simp
  · rw [HostState.modify_data_of_ne _ _ _ _ h]

theorem modify_sold_sold :
    ((s.modify v (NodeData.atomicAdd .sold x)).data w).sold =
      (s.data w).sold + if v = w then x else 0 := by
  by_cases h : v = w
  · subst h
    simp
  · simp [HostState.modify_data_of_ne _ _ _ _ (Ne.symm h), h]

theorem modify_sold_bought :
    ((s.modify v (NodeData.atomicAdd .sold x)).data w).bought = (s.data w).bought := by
  by_cases h : w = v
  · subst h
    simp
  · rw [HostState.modify_data_of_ne _ _ _ _ h]

theorem modify_desired :
    ((s.modify v (NodeData.atomicAdd c x)).data w).desired = (s.data w).desired := by
  by_cases h : w = v
  · subst h
    simp
  · rw [HostState.modify_data_of_ne _ _ _ _ h]

theorem atomicSubtract_eq : NodeData.atomicSubtract c x = NodeData.atomicAdd c (-x) := by
  funext n
  simp [NodeData.atomicSubtract, NodeData.atomicAdd, sub_eq_add_neg]

end Modify

section Pool
variable {τ : Type*} {s : HostState} {pc : τ → TradePc}

/-- The records of a host and the attempts of its threads. -/
def tradePool (s : HostState) (pc : τ → TradePc) : Pool GlobalNodeID τ ℚ :=
  ⟨fun v => (s.data v).bought, fun v => (s.data v).sold, pc⟩

theorem tradePool_setPc [DecidableEq τ] (t : τ) (p : TradePc) :
    tradePool s (Function.update pc t p) = (tradePool s pc).setPc t p := rfl

theorem tradePool_sell (seller : GlobalNodeID) (x : ℚ) :
    tradePool (s.modify seller (NodeData.atomicAdd .sold x)) pc =
      (tradePool s pc).add seller x := by
  unfold tradePool Pool.add
  congr 1
  · funext v
    exact modify_sold_bought ..
  · funext v
    rw [modify_sold_sold]
    by_cases h : seller = v
    · subst h
      simp
    · simp [h, Ne.symm h]

theorem tradePool_buy (buyer : GlobalNodeID) (x : ℚ) :
    tradePool (s.modify buyer (NodeData.atomicAdd .bought x)) pc =
      (tradePool s pc).grow buyer x := by
  unfold tradePool Pool.grow
  congr 1
  · funext v
    rw [modify_bought_bought]
    by_cases h : buyer = v
    · subst h
      simp
    · simp [h, Ne.symm h]
  · funext v
    exact modify_bought_sold ..

@[simp] theorem tradePool_mark (c : Counter) (v : GlobalNodeID) :
    tradePool (s.mark c v) pc = tradePool s pc := rfl

theorem attempt_bought (p : TradePc) (v : GlobalNodeID) :
    ((attempt s p).1.data v).bought = (s.data v).bought := by
  cases p with
  | reserving => exact modify_sold_bought ..
  | withdrawing seller delta seen =>
    simp only [attempt, atomicSubtract_eq]
    exact modify_sold_bought ..
  | _ => rfl

theorem attempt_desired (p : TradePc) (v : GlobalNodeID) :
    ((attempt s p).1.data v).desired = (s.data v).desired := by
  cases p with
  | reserving => exact modify_desired ..
  | withdrawing seller delta seen =>
    simp only [attempt, atomicSubtract_eq]
    exact modify_desired ..
  | _ => rfl

/-- An attempt stays on its seller and its amount until it is over. -/
theorem attempt_wants {p : TradePc} {seller : GlobalNodeID} {delta : ℚ}
    (h : (attempt s p).2.Wants seller delta) : p.Wants seller delta := by
  cases p with
  | comparing =>
    simp only [attempt] at h
    split_ifs at h <;> exact h
  | withdrawing => exact h.elim
  | _ => exact h

variable [DecidableEq τ] [Fintype τ]

/-- Between two states of a host and its threads no trade is committed. -/
structure QuietHost (s : HostState) (pc : τ → TradePc) (s' : HostState) (pc' : τ → TradePc) :
    Prop where
  bought : ∀ v, (s'.data v).bought = (s.data v).bought
  desired : ∀ v, (s'.data v).desired = (s.data v).desired
  bitset : s'.bitset = s.bitset
  settled : ∀ v, (tradePool s' pc').settled v = (tradePool s pc).settled v
  pool : Relation.ReflGen Step (tradePool s pc) (tradePool s' pc')

theorem QuietHost.refl (s : HostState) (pc : τ → TradePc) : QuietHost s pc s pc :=
  ⟨fun _ => rfl, fun _ => rfl, rfl, fun _ => rfl, .refl⟩

theorem QuietHost.inv {s' : HostState} {pc' : τ → TradePc} (hq : QuietHost s pc s' pc')
    {c₀ r₀ : GlobalNodeID → ℚ} (h : Inv c₀ r₀ (tradePool s pc)) : Inv c₀ r₀ (tradePool s' pc') := by
  rcases (Relation.reflGen_iff _ _ _).mp hq.pool with heq | hstep
  · exact heq ▸ h
  · exact h.step hstep

theorem QuietHost.live {s' : HostState} {pc' : τ → TradePc} (hq : QuietHost s pc s' pc')
    {c₀ r₀ : GlobalNodeID → ℚ} {v : GlobalNodeID} (h : Inv c₀ r₀ (tradePool s pc))
    (hl : (tradePool s pc).Live r₀ v) : (tradePool s' pc').Live r₀ v := by
  rcases (Relation.reflGen_iff _ _ _).mp hq.pool with heq | hstep
  · exact heq ▸ hl
  · exact hl.step h hstep

/-- A thread that sees a surplus decides to take part of it. -/
theorem quietHost_observe {t : τ} {seller : GlobalNodeID} {delta : ℚ} (hpc : pc t = .idle)
    (hpos : 0 < delta) (hd : delta ≤ (s.data seller).surplus) :
    QuietHost s pc s (Function.update pc t (.reserving seller delta)) :=
  ⟨fun _ => rfl, fun _ => rfl, rfl, Pool.observe_settled (s := tradePool s pc) hpc,
    .single (Step.observe (s := tradePool s pc) hpc hpos hd)⟩

/-- The steps of an attempt are steps of the pool, and settle nothing. -/
theorem quietHost_attempt {t : τ} {p : TradePc} (hp : pc t = p) :
    QuietHost s pc (attempt s p).1 (Function.update pc t (attempt s p).2) := by
  have hpc : (tradePool s pc).pc t = p := hp
  cases p with
  | idle | committing =>
    simp only [attempt]
    rw [← hp, Function.update_eq_self]
    exact .refl s pc
  | reserving seller delta =>
    refine ⟨attempt_bought _, attempt_desired _, rfl, ?_, ?_⟩ <;>
      simp only [attempt, tradePool_setPc, tradePool_sell]
    · exact Pool.reserve_settled hpc
    · exact .single (Step.reserve hpc)
  | comparing seller delta seen =>
    refine ⟨fun _ => rfl, fun _ => rfl, rfl, ?_, ?_⟩ <;> simp only [attempt, tradePool_setPc]
    · exact Pool.compare_settled hpc _
    · exact .single (Step.compare hpc)
  | withdrawing seller delta seen =>
    refine ⟨attempt_bought _, attempt_desired _, rfl, ?_, ?_⟩ <;>
      simp only [attempt, atomicSubtract_eq, tradePool_setPc, tradePool_sell]
    · exact Pool.withdraw_settled hpc
    · exact .single (Step.withdraw hpc)

end Pool

end Wf4
