import GraphLogSketch.Scripts.CommercialMarket

/-! The suppliers of the buyers of `commercial.py`. The loops look for a supplier in `suppliers`, but
this is always empty: a buyer gets whomever it draws, and a person who is drawn twice is its supplier
twice. -/
namespace Commercial
open RejectionSampling TradeRecords

/-- The purchasing loops. -/
def Run.loops (run : Run) : List (List Sale) :=
  [run.retail, run.wholesellers, run.wholesellerDemand, run.distributors, run.distributorDemand]

/-- Everybody else who is drawn as a supplier of a buyer. -/
def suppliersDrawn (buyer : ℕ) (turns : List Turn) : List ℕ :=
  (turns.flatMap Turn.choice).filter fun c => c ≠ buyer

/-- In no loop does a buyer draw another person twice. -/
structure DrawnOnce (people : People) (d : Draws) : Prop where
  retail : ∀ b ∈ people.retailCustomers, (suppliersDrawn b (d.retail b).turns).Nodup
  wholesellers : ∀ b ∈ people.wholesellers, (suppliersDrawn b (d.wholeseller b).turns).Nodup
  wholesellerDemand : ∀ b ∈ people.wholesellers,
    (suppliersDrawn b ((d.wholesellerDemand b).map Prod.snd)).Nodup
  distributors : ∀ b ∈ people.distributors, (suppliersDrawn b (d.distributor b).turns).Nodup
  distributorDemand : ∀ b ∈ people.distributors, (suppliersDrawn b (d.distributorDemand b)).Nodup

section Turns
variable {p : Purchases} {buyer : ℕ} {suppliers : Finset ℕ} {m m' : Market} {sales : List Sale}

/-- The suppliers are all draws that are not refused. -/
theorem buyTurns_suppliers {turns : List Turn}
    (h : buyTurns p buyer suppliers turns m = some (m', sales)) :
    sales.map Trade.supplier =
      (turns.flatMap Turn.choice).filter fun c => ¬ p.Refused buyer suppliers c := by
  induction turns generalizing m sales with
  | nil =>
    cases h
    rfl
  | cons turn turns ih =>
    obtain ⟨supplier, rest, hsupplier, hrest, rfl⟩ := buyTurns_cons h
    rw [List.flatMap_cons, List.filter_append, filter_of_chooseSupplier hsupplier, ← ih hrest]
    rfl

theorem meetTurns_suppliers {amountOf : UnitDraw → ℚ} {left : ℚ}
    {turns : List (List ℕ × Turn)}
    (h : meetTurns amountOf buyer suppliers turns left m = some (m', sales)) :
    sales.map Trade.supplier = ((turns.map Prod.snd).flatMap Turn.choice).filter
      fun c => ¬ (c = buyer ∨ c ∈ suppliers) := by
  induction turns generalizing m sales left with
  | nil =>
    obtain ⟨-, -, rfl⟩ := meetTurns_nil h
    rfl
  | cons turn turns ih =>
    obtain ⟨-, supplier, rest, hsupplier, hrest, rfl⟩ := meetTurns_cons h
    rw [List.map_cons, List.map_cons, List.flatMap_cons, List.filter_append,
      filter_of_chooseSupplier hsupplier, ← ih hrest]
    rfl

theorem meetTurns_drawn {amountOf : UnitDraw → ℚ} {left : ℚ} {turns : List (List ℕ × Turn)}
    (h : meetTurns amountOf buyer ∅ turns left m = some (m', sales)) :
    sales.map Trade.supplier = suppliersDrawn buyer (turns.map Prod.snd) := by
  rw [meetTurns_suppliers h, suppliersDrawn]
  simp

/-- A buyer that sells in a loop is refused as its own supplier there. -/
theorem buyFrom_drawn {draws : ℕ → BuyerDraws} (hown : buyer ∈ p.sellers → p.ownRefused = true)
    (h : buyFrom p draws buyer m = some (m', sales)) :
    sales.map Trade.supplier = suppliersDrawn buyer (draws buyer).turns := by
  unfold buyFrom at h
  split_ifs at h
  obtain ⟨-, hsellers⟩ := buyTurns_entered h
  have hdrawn := buyTurns_suppliers h
  by_cases hrefused : p.ownRefused = true
  · rw [hdrawn, suppliersDrawn]
    simp [Purchases.Refused, hrefused]
  · have hall : ((draws buyer).turns.flatMap Turn.choice).filter
        (fun c => ¬ p.Refused buyer ∅ c) = (draws buyer).turns.flatMap Turn.choice := by
      simp [Purchases.Refused, hrefused]
    rw [hall] at hdrawn
    rw [suppliersDrawn, ← hdrawn, eq_comm, List.filter_eq_self]
    intro c hc
    obtain ⟨s, hs, rfl⟩ := List.mem_map.mp hc
    have hne : s.supplier ≠ buyer := fun heq => hrefused (hown (heq ▸ (hsellers s hs).2))
    simpa using hne

variable {buyers : List ℕ}

/-- The loops in which every buyer has a number of suppliers. -/
theorem purchases_once_iff {draws : ℕ → BuyerDraws} (hnodup : buyers.Nodup)
    (hown : ∀ b ∈ buyers, b ∈ p.sellers → p.ownRefused = true)
    (h : tradeAll (buyFrom p draws) buyers m = some (m', sales)) :
    Once sales ↔ ∀ b ∈ buyers, (suppliersDrawn b (draws b).turns).Nodup :=
  tradeAll_once_iff (fun _ _ => buyFrom_entered) hnodup h fun b hb => buyFrom_drawn (hown b hb)

/-- The loops in which the buyers buy what they sold. -/
theorem demand_once_iff {amountOf : UnitDraw → ℚ} {percent : ℚ}
    {turns : ℕ → List (List ℕ × Turn)} (hnodup : buyers.Nodup)
    (h : tradeAll (meetDemand amountOf percent turns) buyers m = some (m', sales)) :
    Once sales ↔ ∀ b ∈ buyers, (suppliersDrawn b ((turns b).map Prod.snd)).Nodup :=
  tradeAll_once_iff (fun _ _ => meetDemand_entered) hnodup h fun _ _ => meetTurns_drawn

end Turns

/-- The loops give no buyer a supplier twice if and only if no buyer draws one twice. -/
theorem commercial_once_iff {order : SetOrder} {p : Parameters} {d : Draws} {run : Run}
    (hrun : commercial order p d = some run) :
    (∀ sales ∈ run.loops, Once sales) ↔
      ∀ people ∈ choosePeople order p d, DrawnOnce people d := by
  obtain ⟨hpeople, m₁, m₂, m₃, m₄, m₅, hstages⟩ := commercial_stages hrun
  have hapart := choosePeople_apart hpeople
  have hretail := purchases_once_iff hapart.retailCustomers (fun b hb hsells =>
    (hapart.wholeseller_customer hsells hb).elim) hstages.retail
  have hwhole := purchases_once_iff hapart.wholesellers (fun _ _ _ => rfl) hstages.wholesellers
  have hwholeDemand := demand_once_iff hapart.wholesellers hstages.wholesellerDemand
  have hdistr := purchases_once_iff hapart.distributors (fun _ _ _ => rfl) hstages.distributors
  have hdistrDemand := demand_once_iff hapart.distributors hstages.distributorDemand
  simp only [wholesellerTurns_draws] at hwholeDemand
  simp only [distributorTurns_draws] at hdistrDemand
  simp only [Run.loops, List.forall_mem_cons, List.not_mem_nil, IsEmpty.forall_iff, forall_const,
    and_true, hretail, hwhole, hwholeDemand, hdistr, hdistrDemand, hpeople, Option.mem_def,
    Option.some.injEq, forall_eq']
  exact ⟨fun ⟨h₁, h₂, h₃, h₄, h₅⟩ => ⟨h₁, h₂, h₃, h₄, h₅⟩,
    fun ⟨h₁, h₂, h₃, h₄, h₅⟩ => ⟨h₁, h₂, h₃, h₄, h₅⟩⟩

theorem commercial_once_six :
    ∃ run ∈ commercial chosenOrder (smallParameters 0 6) sixWholesellers,
      (∀ sales ∈ run.loops, Once sales) ↔
        ∀ people ∈ choosePeople chosenOrder (smallParameters 0 6) sixWholesellers,
          DrawnOnce people sixWholesellers := by
  obtain ⟨run, hrun⟩ := sixWholesellers_run
  exact ⟨run, hrun, commercial_once_iff hrun⟩

/-- Two wholesellers can only buy from each other, and they do it five times. -/
def twoWholesellers : Draws :=
  smallMarket 0 2 fun b => List.replicate 5 ⟨[1 - b], leastDraw⟩

theorem commercial_twoWholesellers :
    ∃ run ∈ commercial chosenOrder (smallParameters 0 2) twoWholesellers,
      run.wholesellers = List.replicate 5 ⟨1, 0, 15⟩ ++ List.replicate 5 ⟨0, 1, 15⟩ ∧
        ¬ ∀ sales ∈ run.loops, Once sales := by
  decide +kernel

end Commercial
