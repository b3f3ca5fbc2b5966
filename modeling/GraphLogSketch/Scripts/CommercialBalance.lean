import GraphLogSketch.Scripts.CommercialMarket
import GraphLogSketch.Wf4.CancelLedger

/-! What the persons of `commercial.py` bought and sold in total. Wholesellers and distributors buy
what they miss when nobody asks them for more any longer. The sale of a grower to itself counts on
both sides, so that it makes up for nothing. -/
namespace Commercial
open RejectionSampling TradeRecords AtomicAdds

/-- No grower is drawn: the suppliers of the wholesellers are distributors, and no distributor has
anything left to buy. -/
structure GrowersSpared (people : People) (d : Draws) : Prop where
  wholesellers : ∀ b ∈ people.wholesellers, ∀ draw ∈ d.wholesellerDemand b,
    (draw.1 : ℚ) < 70 / 100
  distributors : ∀ b ∈ people.distributors, d.distributorDemand b = []

/-- The persons who sell. -/
def People.sellers (people : People) : List ℕ :=
  people.growers ++ people.distributors ++ people.wholesellers

section Demand
variable {amountOf : UnitDraw → ℚ} {percent left : ℚ} {buyer : ℕ} {suppliers : Finset ℕ}
  {m m' : Market} {sales : List Sale}

theorem pounds_pos {range least : ℚ} (hrange : 0 ≤ range) (hleast : 0 < least) (r : UnitDraw) :
    0 < pounds range least r :=
  add_pos_of_nonneg_of_pos (mul_nonneg hrange r.2.1) hleast

theorem multiplier_ge_one (hpercent : 0 ≤ percent) : 1 ≤ multiplier percent := by
  unfold multiplier
  linarith

/-- The buyer buys what is left, and not more. -/
theorem meetTurns_bought {turns : List (List ℕ × Turn)}
    (h : meetTurns amountOf buyer suppliers turns left m = some (m', sales)) :
    bought sales buyer = max left 0 := by
  induction turns generalizing m sales left with
  | nil =>
    obtain ⟨hleft, -, rfl⟩ := meetTurns_nil h
    rw [bought_nil, max_eq_right hleft]
  | cons turn turns ih =>
    obtain ⟨hleft, supplier, rest, -, hrest, rfl⟩ := meetTurns_cons h
    have hmin := min_le_right (amountOf turn.2.amount) left
    rw [bought_cons, if_pos rfl, ih hrest, max_eq_left (sub_nonneg.mpr hmin), max_eq_left hleft.le]
    ring

theorem meetTurns_amounts (hpos : ∀ r, 0 < amountOf r) {turns : List (List ℕ × Turn)}
    (h : meetTurns amountOf buyer suppliers turns left m = some (m', sales)) :
    ∀ s ∈ sales, 0 < s.amount := by
  induction turns generalizing m sales left with
  | nil =>
    obtain ⟨-, -, rfl⟩ := meetTurns_nil h
    simp
  | cons turn turns ih =>
    obtain ⟨hleft, supplier, rest, -, hrest, rfl⟩ := meetTurns_cons h
    exact List.forall_mem_cons.mpr ⟨lt_min (hpos _) hleft, ih hrest⟩

/-- Every turn makes a sale. -/
theorem exists_sale_of_turn {turns : List (List ℕ × Turn)}
    (h : meetTurns amountOf buyer suppliers turns left m = some (m', sales))
    {turn : List ℕ × Turn} (hturn : turn ∈ turns) : ∃ s ∈ sales, s.supplier ∈ turn.1 := by
  induction turns generalizing m sales left with
  | nil => cases hturn
  | cons first turns ih =>
    obtain ⟨-, supplier, rest, hsupplier, hrest, rfl⟩ := meetTurns_cons h
    rcases List.mem_cons.mp hturn with rfl | hturn
    · exact ⟨_, List.mem_cons_self, mem_of_chooseSupplier hsupplier⟩
    · obtain ⟨s, hs, hmem⟩ := ih hrest hturn
      exact ⟨s, List.mem_cons_of_mem _ hs, hmem⟩

variable {turns : ℕ → List (List ℕ × Turn)} {buyers : List ℕ}

theorem demand_amounts (hpos : ∀ r, 0 < amountOf r)
    (h : tradeAll (meetDemand amountOf percent turns) buyers m = some (m', sales)) :
    ∀ s ∈ sales, 0 < s.amount := by
  obtain ⟨-, hsales⟩ := tradeAll_entered (P := fun s => 0 < s.amount) (fun b _ m m' own hown =>
    ⟨(meetDemand_entered hown).1, fun s hs =>
      ⟨((meetDemand_entered hown).2 s hs).1, meetTurns_amounts hpos hown s hs⟩⟩) h
  exact fun s hs => (hsales s hs).2

theorem demand_sale_of_turn (hnodup : buyers.Nodup)
    (h : tradeAll (meetDemand amountOf percent turns) buyers m = some (m', sales))
    (hbuyer : buyer ∈ buyers) {turn : List ℕ × Turn} (hturn : turn ∈ turns buyer) :
    ∃ s ∈ sales, s.supplier ∈ turn.1 := by
  obtain ⟨_, _, _, -, -, hown⟩ :=
    tradeAll_turn (fun _ _ => meetDemand_entered) hnodup h hbuyer
  obtain ⟨s, hs, hmem⟩ := exists_sale_of_turn hown hturn
  exact ⟨s, (List.mem_filter.mp hs).1, hmem⟩

/-- A buyer that nobody buys from any longer ends up with what it sold. -/
theorem demand_covers (hpercent : 0 ≤ percent) (hnodup : buyers.Nodup)
    (h : tradeAll (meetDemand amountOf percent turns) buyers m = some (m', sales))
    (hbuyer : buyer ∈ buyers) (hclosed : ∀ b, ∀ turn ∈ turns b, buyer ∉ turn.1) :
    m.sells buyer ≤ m.buys buyer + bought sales buyer := by
  obtain ⟨before, start, last, hentered, hbefore, hown⟩ :=
    tradeAll_turn (fun _ _ => meetDemand_entered) hnodup h hbuyer
  -- the buyers before it leave both sides of its account as they are
  have hsells : start.sells buyer = m.sells buyer := by
    rw [hentered.sells, sold_eq_zero, add_zero]
    rintro s hs rfl
    obtain ⟨-, turn, hturn, hmem⟩ := hbefore s hs
    exact hclosed _ turn hturn hmem
  have hbuys : start.buys buyer = m.buys buyer := by
    rw [hentered.buys]
    simp
  have hbought := meetTurns_bought hown
  rw [bought_filter, toBuy, hsells, hbuys] at hbought
  rw [hbought]
  rcases le_total (m.sells buyer) (m.buys buyer) with hle | hle
  · exact hle.trans (le_add_of_nonneg_right (le_max_right _ _))
  · have hmul := le_mul_of_one_le_right (sub_nonneg.mpr hle) (multiplier_ge_one hpercent)
    have hmax := le_max_left ((m.sells buyer - m.buys buyer) * multiplier percent) 0
    linarith

end Demand

/-- Who trades in each loop, and what the accounts are after it. -/
structure Tiers (people : People) (run : Run) (m₁ m₂ m₃ m₄ m₅ : Market) : Prop where
  retail : Entered false zeroMarket m₁ run.retail ∧
    ∀ s ∈ run.retail, s.buyer ∈ people.retailCustomers ∧ s.supplier ∈ people.wholesellers
  wholesellers : Entered true m₁ m₂ run.wholesellers ∧
    ∀ s ∈ run.wholesellers, s.buyer ∈ people.wholesellers ∧ s.supplier ∈ people.wholesellers
  wholesellerDemand : Entered false m₂ m₃ run.wholesellerDemand ∧
    ∀ s ∈ run.wholesellerDemand, s.buyer ∈ people.wholesellers ∧
      (s.supplier ∈ people.distributors ∨ s.supplier ∈ people.growers)
  distributors : Entered true m₃ m₄ run.distributors ∧
    ∀ s ∈ run.distributors, s.buyer ∈ people.distributors ∧ s.supplier ∈ people.distributors
  distributorDemand : Entered false m₄ m₅ run.distributorDemand ∧
    ∀ s ∈ run.distributorDemand, s.buyer ∈ people.distributors ∧ s.supplier ∈ people.growers

section Totals
variable {people : People} {p : Parameters} {d : Draws} {run : Run} {m₁ m₂ m₃ m₄ m₅ : Market}

theorem wholesellerTurns_sellers {draws : List (UnitDraw × Turn)} {turn : List ℕ × Turn}
    (h : turn ∈ wholesellerTurns people draws) :
    turn.1 = people.distributors ∨ turn.1 = people.growers := by
  obtain ⟨draw, -, rfl⟩ := List.mem_map.mp h
  dsimp only
  split_ifs
  · exact Or.inl rfl
  · exact Or.inr rfl

theorem distributorTurns_sellers {draws : List Turn} {turn : List ℕ × Turn}
    (h : turn ∈ distributorTurns people draws) : turn.1 = people.growers := by
  obtain ⟨draw, -, rfl⟩ := List.mem_map.mp h
  rfl

theorem Stages.tiers (h : Stages people p d run m₁ m₂ m₃ m₄ m₅) :
    Tiers people run m₁ m₂ m₃ m₄ m₅ where
  retail := tradeAll_entered (fun _ _ => buyFrom_entered) h.retail
  wholesellers := tradeAll_entered (fun _ _ => buyFrom_entered) h.wholesellers
  distributors := tradeAll_entered (fun _ _ => buyFrom_entered) h.distributors
  wholesellerDemand := by
    obtain ⟨hentered, hsales⟩ :=
      tradeAll_entered (fun _ _ => meetDemand_entered) h.wholesellerDemand
    refine ⟨hentered, fun s hs => ?_⟩
    obtain ⟨hbuyer, turn, hturn, hsupplier⟩ := hsales s hs
    rcases wholesellerTurns_sellers hturn with heq | heq
    · exact ⟨hbuyer, Or.inl (heq ▸ hsupplier)⟩
    · exact ⟨hbuyer, Or.inr (heq ▸ hsupplier)⟩
  distributorDemand := by
    obtain ⟨hentered, hsales⟩ :=
      tradeAll_entered (fun _ _ => meetDemand_entered) h.distributorDemand
    refine ⟨hentered, fun s hs => ?_⟩
    obtain ⟨hbuyer, turn, hturn, hsupplier⟩ := hsales s hs
    exact ⟨hbuyer, distributorTurns_sellers hturn ▸ hsupplier⟩

theorem sold_sales (run : Run) (v : ℕ) : sold run.sales v = sold run.retail v +
    sold run.wholesellers v + sold run.wholesellerDemand v + sold run.distributors v +
    sold run.distributorDemand v + sold run.growers v := by
  simp only [Run.sales, sold_append]

theorem bought_sales (run : Run) (v : ℕ) : bought run.sales v = bought run.retail v +
    bought run.wholesellers v + bought run.wholesellerDemand v + bought run.distributors v +
    bought run.distributorDemand v + bought run.growers v := by
  simp only [Run.sales, bought_append]

/-- What growers sell to themselves they buy from themselves. -/
theorem bought_growers (h : Stages people p d run m₁ m₂ m₃ m₄ m₅) (v : ℕ) :
    bought run.growers v = sold run.growers v := by
  rw [h.growers, sold, bought, List.map_map, List.map_map]
  rfl

theorem Tiers.wholeseller_accounts (h : Tiers people run m₁ m₂ m₃ m₄ m₅) (v : ℕ) :
    m₂.sells v = sold run.retail v + sold run.wholesellers v ∧
      m₂.buys v = bought run.wholesellers v := by
  constructor
  · rw [h.wholesellers.1.sells, h.retail.1.sells]
    simp [zeroMarket]
  · rw [h.wholesellers.1.buys, h.retail.1.buys]
    simp [zeroMarket]

theorem Tiers.distributor_accounts (h : Tiers people run m₁ m₂ m₃ m₄ m₅) (v : ℕ) :
    m₄.sells v = sold run.retail v + sold run.wholesellers v + sold run.wholesellerDemand v +
        sold run.distributors v ∧
      m₄.buys v = bought run.wholesellers v + bought run.distributors v := by
  obtain ⟨hsells, hbuys⟩ := h.wholeseller_accounts v
  constructor
  · rw [h.distributors.1.sells, h.wholesellerDemand.1.sells, hsells]
  · rw [h.distributors.1.buys, h.wholesellerDemand.1.buys, hbuys]
    simp

section Roles
variable {v : ℕ} (h : Tiers people run m₁ m₂ m₃ m₄ m₅)
include h

theorem Tiers.sold_of_not_wholeseller (hv : v ∉ people.wholesellers) :
    sold run.retail v = 0 ∧ sold run.wholesellers v = 0 :=
  ⟨sold_eq_zero fun s hs heq => hv (heq ▸ (h.retail.2 s hs).2),
    sold_eq_zero fun s hs heq => hv (heq ▸ (h.wholesellers.2 s hs).2)⟩

theorem Tiers.sold_of_not_distributor (hv : v ∉ people.distributors) :
    sold run.distributors v = 0 :=
  sold_eq_zero fun s hs heq => hv (heq ▸ (h.distributors.2 s hs).2)

theorem Tiers.sold_of_not_grower (hv : v ∉ people.growers) : sold run.distributorDemand v = 0 :=
  sold_eq_zero fun s hs heq => hv (heq ▸ (h.distributorDemand.2 s hs).2)

theorem Tiers.sold_of_neither (hd : v ∉ people.distributors) (hg : v ∉ people.growers) :
    sold run.wholesellerDemand v = 0 := by
  apply sold_eq_zero
  rintro s hs rfl
  exact (h.wholesellerDemand.2 s hs).2.elim hd hg

theorem Tiers.bought_of_not_customer (hv : v ∉ people.retailCustomers) :
    bought run.retail v = 0 :=
  bought_eq_zero fun s hs heq => hv (heq ▸ (h.retail.2 s hs).1)

theorem Tiers.bought_of_not_wholeseller (hv : v ∉ people.wholesellers) :
    bought run.wholesellers v = 0 ∧ bought run.wholesellerDemand v = 0 :=
  ⟨bought_eq_zero fun s hs heq => hv (heq ▸ (h.wholesellers.2 s hs).1),
    bought_eq_zero fun s hs heq => hv (heq ▸ (h.wholesellerDemand.2 s hs).1)⟩

theorem Tiers.bought_of_not_distributor (hv : v ∉ people.distributors) :
    bought run.distributors v = 0 ∧ bought run.distributorDemand v = 0 :=
  ⟨bought_eq_zero fun s hs heq => hv (heq ▸ (h.distributors.2 s hs).1),
    bought_eq_zero fun s hs heq => hv (heq ▸ (h.distributorDemand.2 s hs).1)⟩

end Roles

theorem wholeseller_covered (h : Stages people p d run m₁ m₂ m₃ m₄ m₅) (hapart : people.Apart)
    (hpercent : 0 ≤ p.wholesellerPercent) {v : ℕ} (hv : v ∈ people.wholesellers) :
    sold run.sales v ≤ bought run.sales v := by
  have ht := h.tiers
  have hd : v ∉ people.distributors := fun hd => hapart.distributor_wholeseller hd hv
  have hg : v ∉ people.growers := fun hg => hapart.grower_wholeseller hg hv
  have hcovers := demand_covers hpercent hapart.wholesellers h.wholesellerDemand hv (by
    intro b turn hturn
    rcases wholesellerTurns_sellers hturn with heq | heq <;> rw [heq]
    · exact hd
    · exact hg)
  obtain ⟨hsells, hbuys⟩ := ht.wholeseller_accounts v
  obtain ⟨hdistr, hdistrDemand⟩ := ht.bought_of_not_distributor hd
  rw [sold_sales, bought_sales, bought_growers h, ht.sold_of_neither hd hg,
    ht.sold_of_not_distributor hd, ht.sold_of_not_grower hg,
    ht.bought_of_not_customer (hapart.wholeseller_customer hv), hdistr, hdistrDemand]
  linarith

theorem distributor_covered (h : Stages people p d run m₁ m₂ m₃ m₄ m₅) (hapart : people.Apart)
    (hpercent : 0 ≤ p.distributorPercent) {v : ℕ} (hv : v ∈ people.distributors) :
    sold run.sales v ≤ bought run.sales v := by
  have ht := h.tiers
  have hg : v ∉ people.growers := fun hg => hapart.grower_distributor hg hv
  have hcovers := demand_covers hpercent hapart.distributors h.distributorDemand hv (by
    intro b turn hturn
    rw [distributorTurns_sellers hturn]
    exact hg)
  obtain ⟨hsells, hbuys⟩ := ht.distributor_accounts v
  obtain ⟨hwhole, hwholeDemand⟩ :=
    ht.bought_of_not_wholeseller (hapart.distributor_wholeseller hv)
  rw [sold_sales, bought_sales, bought_growers h, ht.sold_of_not_grower hg,
    ht.bought_of_not_customer (hapart.distributor_customer hv), hwholeDemand]
  linarith

/-- What a grower sells to itself makes up for nothing that it sells to others. -/
theorem grower_covered_iff (h : Stages people p d run m₁ m₂ m₃ m₄ m₅) (hapart : people.Apart)
    {v : ℕ} (hv : v ∈ people.growers) : sold run.sales v ≤ bought run.sales v ↔
      sold run.wholesellerDemand v + sold run.distributorDemand v ≤ 0 := by
  have ht := h.tiers
  have hd : v ∉ people.distributors := hapart.grower_distributor hv
  have hw : v ∉ people.wholesellers := hapart.grower_wholeseller hv
  obtain ⟨hretail, hwhole⟩ := ht.sold_of_not_wholeseller hw
  obtain ⟨hwholeBuys, hwholeDemand⟩ := ht.bought_of_not_wholeseller hw
  obtain ⟨hdistrBuys, hdistrDemand⟩ := ht.bought_of_not_distributor hd
  rw [sold_sales, bought_sales, bought_growers h, hretail, hwhole, ht.sold_of_not_distributor hd,
    ht.bought_of_not_customer (hapart.grower_customer hv), hwholeBuys, hwholeDemand, hdistrBuys,
    hdistrDemand]
  constructor <;> intro hle <;> linarith

end Totals

section Growers
variable {people : People} {p : Parameters} {d : Draws} {run : Run} {m₁ m₂ m₃ m₄ m₅ : Market}

theorem Stages.wholesellerDemand_amounts (h : Stages people p d run m₁ m₂ m₃ m₄ m₅) :
    ∀ s ∈ run.wholesellerDemand, 0 < s.amount :=
  demand_amounts (pounds_pos (by norm_num) (by norm_num)) h.wholesellerDemand

theorem Stages.distributorDemand_amounts (h : Stages people p d run m₁ m₂ m₃ m₄ m₅) :
    ∀ s ∈ run.distributorDemand, 0 < s.amount :=
  demand_amounts (pounds_pos (by norm_num) (by norm_num)) h.distributorDemand

theorem growersSpared_of_sold (h : Stages people p d run m₁ m₂ m₃ m₄ m₅) (hapart : people.Apart)
    (hnone : ∀ v ∈ people.growers,
      sold run.wholesellerDemand v + sold run.distributorDemand v ≤ 0) :
    GrowersSpared people d := by
  have hpos := h.wholesellerDemand_amounts
  have hpos' := h.distributorDemand_amounts
  have hnonneg := sold_nonneg fun s hs => (hpos s hs).le
  have hnonneg' := sold_nonneg fun s hs => (hpos' s hs).le
  constructor
  · intro b hb draw hdraw
    by_contra hgrower
    -- the turn would sell a positive amount of a grower
    obtain ⟨s, hs, hmem⟩ := demand_sale_of_turn hapart.wholesellers h.wholesellerDemand hb
      (List.mem_map_of_mem hdraw)
    simp only [if_neg hgrower] at hmem
    have hle := hnone s.supplier hmem
    have hamount := amount_le_sold (fun s hs => (hpos s hs).le) hs
    linarith [hpos s hs, hnonneg' s.supplier]
  · intro b hb
    apply List.eq_nil_iff_forall_not_mem.mpr
    intro turn hturn
    obtain ⟨s, hs, hmem⟩ := demand_sale_of_turn hapart.distributors h.distributorDemand hb
      (List.mem_map_of_mem hturn)
    have hle := hnone s.supplier hmem
    have hamount := amount_le_sold (fun s hs => (hpos' s hs).le) hs
    linarith [hpos' s hs, hnonneg s.supplier]

theorem GrowersSpared.sold (hspared : GrowersSpared people d)
    (h : Stages people p d run m₁ m₂ m₃ m₄ m₅) (hapart : people.Apart) {v : ℕ}
    (hv : v ∈ people.growers) :
    sold run.wholesellerDemand v = 0 ∧ sold run.distributorDemand v = 0 := by
  obtain ⟨-, hwhole⟩ := tradeAll_entered (fun _ _ => meetDemand_entered) h.wholesellerDemand
  obtain ⟨-, hdistr⟩ := tradeAll_entered (fun _ _ => meetDemand_entered) h.distributorDemand
  constructor
  · apply sold_eq_zero
    rintro s hs rfl
    obtain ⟨hbuyer, turn, hturn, hmem⟩ := hwhole s hs
    obtain ⟨draw, hdraw, rfl⟩ := List.mem_map.mp hturn
    simp only [if_pos (hspared.wholesellers _ hbuyer draw hdraw)] at hmem
    exact hapart.grower_distributor hv hmem
  · apply sold_eq_zero
    rintro s hs rfl
    obtain ⟨hbuyer, turn, hturn, -⟩ := hdistr s hs
    rw [hspared.distributors _ hbuyer] at hturn
    cases hturn

/-- Growers sell nothing in the loops if and only if nobody draws them. -/
theorem growers_sold_iff (h : Stages people p d run m₁ m₂ m₃ m₄ m₅) (hapart : people.Apart) :
    (∀ v ∈ people.growers, sold run.wholesellerDemand v + sold run.distributorDemand v ≤ 0) ↔
      GrowersSpared people d := by
  constructor
  · exact growersSpared_of_sold h hapart
  · intro hspared v hv
    obtain ⟨hwhole, hdistr⟩ := hspared.sold h hapart hv
    rw [hwhole, hdistr, add_zero]

theorem sellers_covered_iff (h : Stages people p d run m₁ m₂ m₃ m₄ m₅) (hapart : people.Apart)
    (hwholeseller : 0 ≤ p.wholesellerPercent) (hdistributor : 0 ≤ p.distributorPercent) :
    (∀ v ∈ people.sellers, sold run.sales v ≤ bought run.sales v) ↔ GrowersSpared people d := by
  rw [← growers_sold_iff h hapart]
  constructor
  · intro hall v hv
    refine (grower_covered_iff h hapart hv).mp (hall v ?_)
    exact List.mem_append_left _ (List.mem_append_left _ hv)
  · intro hgrowers v hv
    rcases List.mem_append.mp hv with hv | hv
    · rcases List.mem_append.mp hv with hv | hv
      · exact (grower_covered_iff h hapart hv).mpr (hgrowers v hv)
      · exact distributor_covered h hapart hdistributor hv
    · exact wholeseller_covered h hapart hwholeseller hv

end Growers

section Amounts
variable {people : People} {p : Parameters} {d : Draws} {run : Run} {m₁ m₂ m₃ m₄ m₅ : Market}

theorem buyTurns_amounts {p : Purchases} (hpos : ∀ r, 0 < p.amount r) {buyer : ℕ}
    {suppliers : Finset ℕ} {turns : List Turn} {m m' : Market} {sales : List Sale}
    (h : buyTurns p buyer suppliers turns m = some (m', sales)) : ∀ s ∈ sales, 0 < s.amount := by
  induction turns generalizing m sales with
  | nil =>
    cases h
    simp
  | cons turn turns ih =>
    obtain ⟨supplier, rest, -, hrest, rfl⟩ := buyTurns_cons h
    exact List.forall_mem_cons.mpr ⟨hpos _, ih hrest⟩

theorem purchases_amounts {p : Purchases} (hpos : ∀ r, 0 < p.amount r) {draws : ℕ → BuyerDraws}
    {buyers : List ℕ} {m m' : Market} {sales : List Sale}
    (h : tradeAll (buyFrom p draws) buyers m = some (m', sales)) : ∀ s ∈ sales, 0 < s.amount := by
  obtain ⟨-, hsales⟩ := tradeAll_entered (P := fun s => 0 < s.amount) (fun b _ m m' own hown => by
    obtain ⟨hentered, hbuyers⟩ := buyFrom_entered hown
    unfold buyFrom at hown
    split_ifs at hown
    exact ⟨hentered, fun s hs => ⟨(hbuyers s hs).1, buyTurns_amounts hpos hown s hs⟩⟩) h
  exact fun s hs => (hsales s hs).2

theorem Stages.amounts_nonneg (h : Stages people p d run m₁ m₂ m₃ m₄ m₅)
    (hgrower : 0 ≤ p.growerPercent) : ∀ s ∈ run.sales, 0 ≤ s.amount := by
  have hretail : ∀ s ∈ run.retail, 0 ≤ s.amount := fun s hs =>
    (purchases_amounts (pounds_pos (by norm_num) (by norm_num)) h.retail s hs).le
  have hwhole : ∀ s ∈ run.wholesellers, 0 ≤ s.amount := fun s hs =>
    (purchases_amounts (pounds_pos (by norm_num) (by norm_num)) h.wholesellers s hs).le
  have hwholeDemand : ∀ s ∈ run.wholesellerDemand, 0 ≤ s.amount := fun s hs =>
    (h.wholesellerDemand_amounts s hs).le
  have hdistr : ∀ s ∈ run.distributors, 0 ≤ s.amount := fun s hs =>
    (purchases_amounts (pounds_pos (by norm_num) (by norm_num)) h.distributors s hs).le
  have hdistrDemand : ∀ s ∈ run.distributorDemand, 0 ≤ s.amount := fun s hs =>
    (h.distributorDemand_amounts s hs).le
  have hgrowers : ∀ s ∈ run.growers, 0 ≤ s.amount := by
    rw [h.growers, List.forall_mem_map]
    intro g _
    have hsells : 0 ≤ m₅.sells g := by
      rw [h.tiers.distributorDemand.1.sells, (h.tiers.distributor_accounts g).1]
      linarith [sold_nonneg hretail g, sold_nonneg hwhole g, sold_nonneg hwholeDemand g,
        sold_nonneg hdistr g, sold_nonneg hdistrDemand g]
    exact mul_nonneg hsells (zero_le_one.trans (multiplier_ge_one hgrower))
  simp only [Run.sales, List.forall_mem_append]
  exact ⟨⟨⟨⟨⟨hretail, hwhole⟩, hwholeDemand⟩, hdistr⟩, hdistrDemand⟩, hgrowers⟩

end Amounts

section Graph
open Wf4
variable {H : ℕ} {g : NetworkGraph H} {id : ℕ → GlobalNodeID} {sales : List Sale} {v : ℕ}

/-- A graph that has the records with a positive amount as sale edges of the suppliers and as
purchase edges of the buyers. -/
structure BuiltFrom (g : NetworkGraph H) (id : ℕ → GlobalNodeID) (sales : List Sale) (v : ℕ) :
    Prop where
  isNode : ∀ s ∈ sales, 0 < s.amount → s.supplier = v ∨ s.buyer = v → g.IsNode (id v)
  sold : (((g.edges (id v)).filter fun e => e.data.type = .sale).map fun e => e.data.amount).Perm
    ((sales.filter fun s => s.supplier = v ∧ 0 < s.amount).map Trade.amount)
  bought : (((g.edges (id v)).filter fun e => e.data.type = .purchase).map
    fun e => e.data.amount).Perm
      ((sales.filter fun s => s.buyer = v ∧ 0 < s.amount).map Trade.amount)

/-- A node as `FillNodeValues` leaves it on the host that owns it. -/
def startNode (g : NetworkGraph H) (u : GlobalNodeID) : NodeData :=
  filledValue g (g.getHostID u) u

theorem startNode_of_not_isNode {u : GlobalNodeID} (hnode : ¬ g.IsNode u) (c : Counter) :
    (startNode g u).get c = 0 := by
  have hnode : u ∉ g.masters (g.getHostID u) := hnode
  rw [startNode, filledValue, fillMasters_get g (g.masters_nodup _), if_neg hnode, add_zero]
  exact NodeData.zero_get c

theorem startNode_totals (hbuilt : BuiltFrom g id sales v) (hamounts : ∀ s ∈ sales, 0 ≤ s.amount) :
    (startNode g (id v)).sold = sold sales v ∧ (startNode g (id v)).bought = bought sales v := by
  by_cases hnode : g.IsNode (id v)
  · have hsold : amountSum .sale (g.edges (id v)) = sold sales v :=
      hbuilt.sold.sum_eq.trans (sum_sold hamounts v)
    have hbought : amountSum .purchase (g.edges (id v)) = bought sales v :=
      hbuilt.bought.sum_eq.trans (sum_bought hamounts v)
    exact ⟨(filledValue_get hnode .sold).trans hsold, (filledValue_get hnode .bought).trans hbought⟩
  · -- whoever is no node has only records of nothing
    have hsupplier : (sales.filter fun s => s.supplier = v ∧ 0 < s.amount) = [] := by
      rw [List.filter_eq_nil_iff]
      intro s hs hv
      have hv := of_decide_eq_true hv
      exact hnode (hbuilt.isNode s hs hv.2 (Or.inl hv.1))
    have hbuyer : (sales.filter fun s => s.buyer = v ∧ 0 < s.amount) = [] := by
      rw [List.filter_eq_nil_iff]
      intro s hs hv
      have hv := of_decide_eq_true hv
      exact hnode (hbuilt.isNode s hs hv.2 (Or.inr hv.1))
    rw [← sum_sold hamounts, ← sum_bought hamounts, hsupplier, hbuyer]
    exact ⟨startNode_of_not_isNode hnode .sold, startNode_of_not_isNode hnode .bought⟩

/-- The edges of a record at a node. -/
def saleEdges (id : ℕ → GlobalNodeID) (u : GlobalNodeID) (s : Sale) : List OutEdge :=
  (if id s.supplier = u then [tradeEdge .sale u (id s.buyer) s.amount] else []) ++
    if id s.buyer = u then [tradeEdge .purchase u (id s.supplier) s.amount] else []

theorem mem_saleEdges {s : Sale} {u : GlobalNodeID} {e : OutEdge} (he : e ∈ saleEdges id u s) :
    e.edgeDst = id s.supplier ∨ e.edgeDst = id s.buyer := by
  rcases List.mem_append.mp he with he | he
  · split_ifs at he
    · exact Or.inr (by rw [List.mem_singleton.mp he]; rfl)
    · cases he
  · split_ifs at he
    · exact Or.inl (by rw [List.mem_singleton.mp he]; rfl)
    · cases he

/-- The records on one host. -/
def recordGraph (id : ℕ → GlobalNodeID) (sales : List Sale) : NetworkGraph 1 where
  masters _ := ((sales.filter fun s => 0 < s.amount).flatMap fun s =>
    [id s.supplier, id s.buyer]).dedup
  mirrors _ := []
  getHostID _ := Fin.last 0
  edges u := (sales.filter fun s => 0 < s.amount).flatMap (saleEdges id u)
  masters_nodup _ := List.nodup_dedup _
  host_of_master _ := Subsingleton.elim _ _
  mirror_mastered h := absurd h List.not_mem_nil
  mirror_remote h := absurd h List.not_mem_nil
  edge_local _ he := by
    obtain ⟨s, hs, he⟩ := List.mem_flatMap.mp he
    refine Or.inl (List.mem_dedup.mpr (List.mem_flatMap.mpr ⟨s, hs, ?_⟩))
    rcases mem_saleEdges he with hdst | hdst <;> simp [hdst]

theorem saleEdges_amounts {s : Sale} (hsupplier : id s.supplier = id v → s.supplier = v)
    (hbuyer : id s.buyer = id v → s.buyer = v) :
    ((saleEdges id (id v) s).filter fun e => e.data.type = .sale).map (fun e => e.data.amount) =
        (if s.supplier = v then [s.amount] else []) ∧
      ((saleEdges id (id v) s).filter fun e => e.data.type = .purchase).map
        (fun e => e.data.amount) = if s.buyer = v then [s.amount] else [] := by
  have hs : id s.supplier = id v ↔ s.supplier = v := ⟨hsupplier, congrArg id⟩
  have hb : id s.buyer = id v ↔ s.buyer = v := ⟨hbuyer, congrArg id⟩
  unfold saleEdges
  simp only [hs, hb]
  constructor <;> split_ifs <;> rfl

theorem flatMap_ite {α β : Type*} (l : List α) (P : α → Prop) [DecidablePred P] (f : α → β) :
    (l.flatMap fun a => if P a then [f a] else []) = (l.filter fun a => P a).map f := by
  induction l with
  | nil => rfl
  | cons a l ih =>
    rw [List.flatMap_cons, ih]
    by_cases ha : P a <;> simp [ha]

/-- The graph has the records of everybody whose id is not the id of someone else. -/
theorem recordGraph_builtFrom (hid : ∀ s ∈ sales,
    (id s.supplier = id v → s.supplier = v) ∧ (id s.buyer = id v → s.buyer = v)) :
    BuiltFrom (recordGraph id sales) id sales v := by
  have hamounts := fun s (hs : s ∈ sales.filter fun s => 0 < s.amount) =>
    have hids := hid s (List.mem_filter.mp hs).1
    saleEdges_amounts hids.1 hids.2
  constructor
  · intro s hs hpos hv
    refine List.mem_dedup.mpr (List.mem_flatMap.mpr
      ⟨s, List.mem_filter.mpr ⟨hs, decide_eq_true hpos⟩, ?_⟩)
    rcases hv with rfl | rfl <;> simp
  · refine .of_eq ?_
    simp only [recordGraph, List.filter_flatMap, List.map_flatMap]
    rw [List.flatMap_congr fun s hs => (hamounts s hs).1, flatMap_ite, List.filter_filter]
    simp only [Bool.decide_and]
  · refine .of_eq ?_
    simp only [recordGraph, List.filter_flatMap, List.map_flatMap]
    rw [List.flatMap_congr fun s hs => (hamounts s hs).2, flatMap_ite, List.filter_filter]
    simp only [Bool.decide_and]

end Graph

/-- Everybody who sells buys as much, and so does its node, if and only if no grower is drawn. -/
theorem commercial_covered_iff {order : SetOrder} {p : Parameters} {d : Draws} {run : Run}
    (hwholeseller : 0 ≤ p.wholesellerPercent) (hdistributor : 0 ≤ p.distributorPercent)
    (hgrower : 0 ≤ p.growerPercent) (hrun : commercial order p d = some run) :
    ((∀ v ∈ run.people.sellers, sold run.sales v ≤ bought run.sales v) ↔
      ∀ people ∈ choosePeople order p d, GrowersSpared people d) ∧
    ∀ {H : ℕ} (g : Wf4.NetworkGraph H) (id : ℕ → Wf4.GlobalNodeID),
      (∀ v ∈ run.people.sellers, BuiltFrom g id run.sales v) →
      ((∀ v ∈ run.people.sellers, (startNode g (id v)).sold ≤ (startNode g (id v)).bought) ↔
        ∀ people ∈ choosePeople order p d, GrowersSpared people d) := by
  obtain ⟨hpeople, m₁, m₂, m₃, m₄, m₅, hstages⟩ := commercial_stages hrun
  have hapart := choosePeople_apart hpeople
  have hrecords := sellers_covered_iff hstages hapart hwholeseller hdistributor
  simp only [hpeople, Option.mem_def, Option.some.injEq, forall_eq']
  refine ⟨hrecords, fun g id hbuilt => ?_⟩
  rw [← hrecords]
  refine forall₂_congr fun v hv => ?_
  obtain ⟨hsold, hbought⟩ := startNode_totals (hbuilt v hv) (hstages.amounts_nonneg hgrower)
  rw [hsold, hbought]

theorem commercial_covered_six :
    ∃ run ∈ commercial chosenOrder (smallParameters 0 6) sixWholesellers,
      ((∀ v ∈ run.people.sellers, sold run.sales v ≤ bought run.sales v) ↔
        ∀ people ∈ choosePeople chosenOrder (smallParameters 0 6) sixWholesellers,
          GrowersSpared people sixWholesellers) ∧
      ((∀ v ∈ run.people.sellers,
          (startNode (recordGraph UInt64.ofNat run.sales) (UInt64.ofNat v)).sold ≤
            (startNode (recordGraph UInt64.ofNat run.sales) (UInt64.ofNat v)).bought) ↔
        ∀ people ∈ choosePeople chosenOrder (smallParameters 0 6) sixWholesellers,
          GrowersSpared people sixWholesellers) := by
  have hsmall : ∃ run ∈ commercial chosenOrder (smallParameters 0 6) sixWholesellers,
      (∀ v ∈ run.people.sellers, v < 6) ∧ ∀ s ∈ run.sales, s.supplier < 6 ∧ s.buyer < 6 := by
    decide +kernel
  obtain ⟨run, hrun, hpeople, hsales⟩ := hsmall
  have hid {u v : ℕ} (hu : u < 6) (hv : v < 6) (heq : UInt64.ofNat u = UInt64.ofNat v) : u = v := by
    have hnat := congrArg UInt64.toNat heq
    rwa [UInt64.toNat_ofNat_of_lt' (hu.trans (by decide)),
      UInt64.toNat_ofNat_of_lt' (hv.trans (by decide))] at hnat
  obtain ⟨hrecords, hgraph⟩ := commercial_covered_iff le_rfl le_rfl le_rfl hrun
  refine ⟨run, hrun, hrecords, hgraph _ _ fun v hv => recordGraph_builtFrom fun s hs => ?_⟩
  exact ⟨hid (hsales s hs).1 (hpeople v hv), hid (hsales s hs).2 (hpeople v hv)⟩

/-- Six wholesellers buy from each other. Person 2 takes a pound more than the others from person 1,
who gets it from the only grower, person 0. -/
def oneGrower : Draws :=
  let d := smallMarket 1 6 fun b => ((List.range' 1 6).filter (· ≠ b)).map fun c =>
    ⟨[c], if b = 2 ∧ c = 1 then share 1 15 (by decide) else leastDraw⟩
  { d with
    wholesellerDemand := fun b =>
      if b = 1 then [(share 7 10 (by decide), ⟨[0], leastDraw⟩)] else [] }

theorem commercial_oneGrower :
    ∃ run ∈ commercial chosenOrder (smallParameters 1 6) oneGrower,
      run.people.growers = [0] ∧ sold run.sales 0 = 2 ∧ bought run.sales 0 = 1 ∧
        ¬ ∀ v ∈ run.people.sellers, sold run.sales v ≤ bought run.sales v := by
  decide +kernel

end Commercial
