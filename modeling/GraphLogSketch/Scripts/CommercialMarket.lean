import GraphLogSketch.Library.RejectionSampling
import GraphLogSketch.Library.TradeRecords
import Mathlib.Data.Rat.Floor

/-! The coffee market of `commercial.py`: persons are chosen for four roles, buyers draw their
suppliers and amounts, and growers buy from themselves. The outcomes of the draws are given. `none` is
a run that ends with an error, that needs more outcomes or that leaves some over. -/
namespace Commercial
open RejectionSampling TradeRecords

/-- An outcome of `random()`. -/
abbrev UnitDraw := {r : ℚ // 0 ≤ r ∧ r < 1}

abbrev Sale := Trade ℕ ℚ

/-- The dictionaries `buys` and `sells`. -/
abbrev Market := Accounts ℕ ℚ

/-- The command line. -/
structure Parameters where
  numPersons : ℕ
  numGrowers : ℕ
  numDistributors : ℕ
  numWholesellers : ℕ
  numRetailCustomers : ℕ
  wholesellerPercent : ℚ
  distributorPercent : ℚ
  growerPercent : ℚ

/-- The draws for one sale: suppliers until one is accepted, and the amount. -/
structure Turn where
  choice : List ℕ
  amount : UnitDraw

/-- The draws of a buyer with a number of suppliers. -/
structure BuyerDraws where
  numSuppliers : UnitDraw
  turns : List Turn

/-- All draws: those for each person of a role, and those for each buyer of a loop. A wholeseller
also draws whether a supplier is a distributor. -/
structure Draws where
  growers : List (List UnitDraw)
  distributors : List (List UnitDraw)
  wholesellers : List (List UnitDraw)
  retailCustomers : List (List UnitDraw)
  retail : ℕ → BuyerDraws
  wholeseller : ℕ → BuyerDraws
  wholesellerDemand : ℕ → List (UnitDraw × Turn)
  distributor : ℕ → BuyerDraws
  distributorDemand : ℕ → List Turn

/-- The order in which a set is iterated over. -/
structure SetOrder where
  iter : List ℕ → List ℕ
  perm : ∀ l, (iter l).Perm l

/-- The persons of the market. -/
structure People where
  growers : List ℕ
  distributors : List ℕ
  wholesellers : List ℕ
  retailCustomers : List ℕ
  deriving DecidableEq

section Choice

def person (numPersons : ℕ) (r : UnitDraw) : ℕ := ⌊(numPersons : ℚ) * r⌋₊

/-- Persons who are in no role yet. If there are no persons, the dictionaries are empty, and looking
somebody up is a key error. -/
def choosePersons (numPersons count : ℕ) (draws : List (List UnitDraw)) (chosenSet : List ℕ) :
    Option (List ℕ) :=
  if draws.length ≠ count ∨ numPersons = 0 ∧ 0 < count then none
  else sampleDistinct chosenSet (draws.map (List.map (person numPersons)))

def choosePeople (order : SetOrder) (p : Parameters) (d : Draws) : Option People := do
  let growers ← choosePersons p.numPersons p.numGrowers d.growers []
  let distributors ← choosePersons p.numPersons p.numDistributors d.distributors growers
  let wholesellers ←
    choosePersons p.numPersons p.numWholesellers d.wholesellers (growers ++ distributors)
  let retailCustomers ← choosePersons p.numPersons p.numRetailCustomers d.retailCustomers
    (growers ++ distributors ++ wholesellers)
  return ⟨order.iter growers, order.iter distributors, order.iter wholesellers,
    order.iter retailCustomers⟩

/-- `random.choice(sellers)`, again while the supplier is refused. -/
def chooseSupplier (sellers : List ℕ) (refused : ℕ → Prop) [DecidablePred refused]
    (choice : List ℕ) : Option ℕ :=
  if ∀ c ∈ choice, c ∈ sellers then sample refused choice else none

end Choice

section Purchases

/-- An amount of at least `least` pounds. -/
def pounds (range least : ℚ) (r : UnitDraw) : ℚ := range * r + least

/-- A loop in which every buyer has a number of suppliers. -/
structure Purchases where
  sellers : List ℕ
  numSuppliers : UnitDraw → ℕ
  amount : UnitDraw → ℚ
  /-- A buyer that is drawn as its own supplier is refused. -/
  ownRefused : Bool
  /-- The amounts are added to `buys`. -/
  counted : Bool

def Purchases.Refused (p : Purchases) (buyer : ℕ) (suppliers : Finset ℕ) (supplier : ℕ) : Prop :=
  p.ownRefused ∧ supplier = buyer ∨ supplier ∈ suppliers

instance (p : Purchases) (buyer : ℕ) (suppliers : Finset ℕ) :
    DecidablePred (p.Refused buyer suppliers) := fun _ => by
  unfold Purchases.Refused
  infer_instance

/-- The loop over the suppliers of a buyer. It adds none of them to `suppliers`. -/
def buyTurns (p : Purchases) (buyer : ℕ) (suppliers : Finset ℕ) :
    List Turn → Market → Option (Market × List Sale)
  | [], m => some (m, [])
  | turn :: turns, m => do
    let supplier ← chooseSupplier p.sellers (p.Refused buyer suppliers) turn.choice
    let amount := p.amount turn.amount
    let m := if p.counted then m.buy buyer amount else m
    let (m, sales) ← buyTurns p buyer suppliers turns (m.sell supplier amount)
    return (m, ⟨supplier, buyer, amount⟩ :: sales)

def buyFrom (p : Purchases) (draws : ℕ → BuyerDraws) (buyer : ℕ) (m : Market) :
    Option (Market × List Sale) :=
  if (draws buyer).turns.length = p.numSuppliers (draws buyer).numSuppliers then
    buyTurns p buyer ∅ (draws buyer).turns m
  else none

def retailPurchases (people : People) : Purchases where
  sellers := people.wholesellers
  numSuppliers r := ⌊3 * (r : ℚ) + 3⌋₊
  amount := pounds 5 1
  ownRefused := false
  counted := false

def wholesellerPurchases (people : People) : Purchases where
  sellers := people.wholesellers
  numSuppliers r := 5 + ⌊5 * (r : ℚ)⌋₊
  amount := pounds 15 15
  ownRefused := true
  counted := true

def distributorPurchases (people : People) : Purchases where
  sellers := people.distributors
  numSuppliers r := 5 + ⌊5 * (r : ℚ)⌋₊
  amount := pounds 150 150
  ownRefused := true
  counted := true

end Purchases

section Demand

/-- The loop while there is something left to buy, with the sellers of each turn. Again `suppliers`
stays as it is; the amounts are not added to `buys`. -/
def meetTurns (amountOf : UnitDraw → ℚ) (buyer : ℕ) (suppliers : Finset ℕ) :
    List (List ℕ × Turn) → ℚ → Market → Option (Market × List Sale)
  | [], toBuy, m => if 0 < toBuy then none else some (m, [])
  | (sellers, turn) :: turns, toBuy, m =>
    if 0 < toBuy then do
      let supplier ← chooseSupplier sellers (fun c => c = buyer ∨ c ∈ suppliers) turn.choice
      let amount := min (amountOf turn.amount) toBuy
      let (m, sales) ←
        meetTurns amountOf buyer suppliers turns (toBuy - amount) (m.sell supplier amount)
      return (m, ⟨supplier, buyer, amount⟩ :: sales)
    else none

def multiplier (percent : ℚ) : ℚ := 1 + percent / 100

def toBuy (m : Market) (percent : ℚ) (buyer : ℕ) : ℚ :=
  (m.sells buyer - m.buys buyer) * multiplier percent

def meetDemand (amountOf : UnitDraw → ℚ) (percent : ℚ) (turns : ℕ → List (List ℕ × Turn))
    (buyer : ℕ) (m : Market) : Option (Market × List Sale) :=
  meetTurns amountOf buyer ∅ (turns buyer) (toBuy m percent buyer) m

/-- Seven in ten suppliers of a wholeseller are distributors. -/
def wholesellerTurns (people : People) (draws : List (UnitDraw × Turn)) : List (List ℕ × Turn) :=
  draws.map fun d => (if (d.1 : ℚ) < 70 / 100 then people.distributors else people.growers, d.2)

def distributorTurns (people : People) (draws : List Turn) : List (List ℕ × Turn) :=
  draws.map fun turn => (people.growers, turn)

@[simp] theorem wholesellerTurns_draws (people : People) (draws : List (UnitDraw × Turn)) :
    (wholesellerTurns people draws).map Prod.snd = draws.map Prod.snd := by
  simp [wholesellerTurns]

@[simp] theorem distributorTurns_draws (people : People) (draws : List Turn) :
    (distributorTurns people draws).map Prod.snd = draws := by
  simp [distributorTurns, Function.comp_def]

def wholesellerDemand (people : People) (p : Parameters) (d : Draws) :
    ℕ → Market → Option (Market × List Sale) :=
  meetDemand (pounds 15 15) p.wholesellerPercent fun b =>
    wholesellerTurns people (d.wholesellerDemand b)

def distributorDemand (people : People) (p : Parameters) (d : Draws) :
    ℕ → Market → Option (Market × List Sale) :=
  meetDemand (pounds 150 150) p.distributorPercent fun b =>
    distributorTurns people (d.distributorDemand b)

end Demand

/-- The sales of each loop. -/
structure Run where
  people : People
  retail : List Sale
  wholesellers : List Sale
  wholesellerDemand : List Sale
  distributors : List Sale
  distributorDemand : List Sale
  growers : List Sale
  deriving DecidableEq

/-- The coffee records. -/
def Run.sales (run : Run) : List Sale :=
  run.retail ++ run.wholesellers ++ run.wholesellerDemand ++ run.distributors ++
    run.distributorDemand ++ run.growers

def selfSale (m : Market) (percent : ℚ) (grower : ℕ) : Sale :=
  ⟨grower, grower, m.sells grower * multiplier percent⟩

def zeroMarket : Market := ⟨fun _ => 0, fun _ => 0⟩

def commercial (order : SetOrder) (p : Parameters) (d : Draws) : Option Run := do
  let people ← choosePeople order p d
  let (m, retail) ←
    tradeAll (buyFrom (retailPurchases people) d.retail) people.retailCustomers zeroMarket
  let (m, wholesellers) ←
    tradeAll (buyFrom (wholesellerPurchases people) d.wholeseller) people.wholesellers m
  let (m, wholesellerDemand) ← tradeAll (wholesellerDemand people p d) people.wholesellers m
  let (m, distributors) ←
    tradeAll (buyFrom (distributorPurchases people) d.distributor) people.distributors m
  let (m, distributorDemand) ← tradeAll (distributorDemand people p d) people.distributors m
  return ⟨people, retail, wholesellers, wholesellerDemand, distributors, distributorDemand,
    people.growers.map (selfSale m p.growerPercent)⟩

section Roles
variable {order : SetOrder} {p : Parameters} {d : Draws} {people : People}

def People.all (people : People) : List ℕ :=
  people.growers ++ people.distributors ++ people.wholesellers ++ people.retailCustomers

theorem choosePersons_nodup {numPersons count : ℕ} {draws : List (List UnitDraw)}
    {chosenSet persons : List ℕ} (hchosen : chosenSet.Nodup)
    (h : choosePersons numPersons count draws chosenSet = some persons) :
    (chosenSet ++ persons).Nodup := by
  unfold choosePersons at h
  split_ifs at h
  exact nodup_of_sampleDistinct hchosen h

/-- Nobody has two roles. -/
theorem choosePeople_nodup (h : choosePeople order p d = some people) : people.all.Nodup := by
  simp only [choosePeople, Option.bind_eq_bind, Option.bind_eq_some_iff, Option.pure_def,
    Option.some.injEq] at h
  obtain ⟨growers, hgrowers, distributors, hdistributors, wholesellers, hwholesellers,
    retailCustomers, hretail, rfl⟩ := h
  have hchosen := choosePersons_nodup List.nodup_nil hgrowers
  have hchosen := choosePersons_nodup hchosen hdistributors
  have hchosen := choosePersons_nodup hchosen hwholesellers
  have hchosen := choosePersons_nodup hchosen hretail
  have hperm := (((order.perm growers).append (order.perm distributors)).append
    (order.perm wholesellers)).append (order.perm retailCustomers)
  exact hperm.nodup_iff.mpr hchosen

/-- The roles have no persons in common and no person twice. -/
structure People.Apart (people : People) : Prop where
  growers : people.growers.Nodup
  distributors : people.distributors.Nodup
  wholesellers : people.wholesellers.Nodup
  retailCustomers : people.retailCustomers.Nodup
  grower_distributor : List.Disjoint people.growers people.distributors
  grower_wholeseller : List.Disjoint people.growers people.wholesellers
  grower_customer : List.Disjoint people.growers people.retailCustomers
  distributor_wholeseller : List.Disjoint people.distributors people.wholesellers
  distributor_customer : List.Disjoint people.distributors people.retailCustomers
  wholeseller_customer : List.Disjoint people.wholesellers people.retailCustomers

theorem choosePeople_apart (h : choosePeople order p d = some people) : people.Apart := by
  have hroles := choosePeople_nodup h
  simp only [People.all, List.nodup_append', List.disjoint_append_left] at hroles
  obtain ⟨⟨⟨hg, hd, hgd⟩, hw, hgw, hdw⟩, hc, ⟨hgc, hdc⟩, hwc⟩ := hroles
  exact ⟨hg, hd, hw, hc, hgd, hgw, hgc, hdw, hdc, hwc⟩

end Roles

section Turns
variable {sellers choice : List ℕ} {refused : ℕ → Prop} [DecidablePred refused] {supplier : ℕ}

theorem mem_of_chooseSupplier (h : chooseSupplier sellers refused choice = some supplier) :
    supplier ∈ sellers := by
  unfold chooseSupplier at h
  split_ifs at h with hsellers
  exact hsellers supplier (mem_of_sample h)

theorem filter_of_chooseSupplier (h : chooseSupplier sellers refused choice = some supplier) :
    (choice.filter fun c => ¬ refused c) = [supplier] := by
  unfold chooseSupplier at h
  split_ifs at h
  exact filter_of_sample h

variable {p : Purchases} {buyer : ℕ} {suppliers : Finset ℕ} {m m' : Market} {sales : List Sale}

theorem buyTurns_cons {turn : Turn} {turns : List Turn}
    (h : buyTurns p buyer suppliers (turn :: turns) m = some (m', sales)) :
    ∃ supplier rest, chooseSupplier p.sellers (p.Refused buyer suppliers) turn.choice =
        some supplier ∧
      buyTurns p buyer suppliers turns ((if p.counted then m.buy buyer (p.amount turn.amount)
        else m).sell supplier (p.amount turn.amount)) = some (m', rest) ∧
      sales = ⟨supplier, buyer, p.amount turn.amount⟩ :: rest := by
  simp only [buyTurns, Option.bind_eq_bind, Option.bind_eq_some_iff, Option.pure_def,
    Option.some.injEq, Prod.mk.injEq] at h
  obtain ⟨supplier, hsupplier, ⟨last, rest⟩, hrest, rfl, rfl⟩ := h
  exact ⟨supplier, rest, hsupplier, hrest, rfl⟩

theorem buyTurns_entered {turns : List Turn}
    (h : buyTurns p buyer suppliers turns m = some (m', sales)) :
    Entered p.counted m m' sales ∧ ∀ s ∈ sales, s.buyer = buyer ∧ s.supplier ∈ p.sellers := by
  induction turns generalizing m sales with
  | nil =>
    cases h
    exact ⟨.refl _, by simp⟩
  | cons turn turns ih =>
    obtain ⟨supplier, rest, hsupplier, hrest, rfl⟩ := buyTurns_cons h
    obtain ⟨hentered, hsales⟩ := ih hrest
    have hfirst := Entered.single p.counted m ⟨supplier, buyer, p.amount turn.amount⟩
    exact ⟨hfirst.append hentered,
      List.forall_mem_cons.mpr ⟨⟨rfl, mem_of_chooseSupplier hsupplier⟩, hsales⟩⟩

theorem buyFrom_entered {draws : ℕ → BuyerDraws} (h : buyFrom p draws buyer m = some (m', sales)) :
    Entered p.counted m m' sales ∧ ∀ s ∈ sales, s.buyer = buyer ∧ s.supplier ∈ p.sellers := by
  unfold buyFrom at h
  split_ifs at h
  exact buyTurns_entered h

variable {amountOf : UnitDraw → ℚ} {left : ℚ}

theorem meetTurns_cons {turn : List ℕ × Turn} {turns : List (List ℕ × Turn)}
    (h : meetTurns amountOf buyer suppliers (turn :: turns) left m = some (m', sales)) :
    0 < left ∧ ∃ supplier rest,
      chooseSupplier turn.1 (fun c => c = buyer ∨ c ∈ suppliers) turn.2.choice = some supplier ∧
      meetTurns amountOf buyer suppliers turns (left - min (amountOf turn.2.amount) left)
        (m.sell supplier (min (amountOf turn.2.amount) left)) = some (m', rest) ∧
      sales = ⟨supplier, buyer, min (amountOf turn.2.amount) left⟩ :: rest := by
  unfold meetTurns at h
  split_ifs at h with hleft
  simp only [Option.bind_eq_bind, Option.bind_eq_some_iff, Option.pure_def, Option.some.injEq,
    Prod.mk.injEq] at h
  obtain ⟨supplier, hsupplier, ⟨last, rest⟩, hrest, rfl, rfl⟩ := h
  exact ⟨hleft, supplier, rest, hsupplier, hrest, rfl⟩

theorem meetTurns_nil (h : meetTurns amountOf buyer suppliers [] left m = some (m', sales)) :
    left ≤ 0 ∧ m' = m ∧ sales = [] := by
  unfold meetTurns at h
  split_ifs at h with hleft
  cases h
  exact ⟨not_lt.mp hleft, rfl, rfl⟩

theorem meetTurns_entered {turns : List (List ℕ × Turn)}
    (h : meetTurns amountOf buyer suppliers turns left m = some (m', sales)) :
    Entered false m m' sales ∧
      ∀ s ∈ sales, s.buyer = buyer ∧ ∃ turn ∈ turns, s.supplier ∈ turn.1 := by
  induction turns generalizing m sales left with
  | nil =>
    obtain ⟨-, rfl, rfl⟩ := meetTurns_nil h
    exact ⟨.refl _, by simp⟩
  | cons turn turns ih =>
    obtain ⟨-, supplier, rest, hsupplier, hrest, rfl⟩ := meetTurns_cons h
    obtain ⟨hentered, hsales⟩ := ih hrest
    have hfirst := Entered.single false m
      ⟨supplier, buyer, min (amountOf turn.2.amount) left⟩
    refine ⟨hfirst.append hentered, List.forall_mem_cons.mpr ⟨⟨rfl, turn, List.mem_cons_self,
      mem_of_chooseSupplier hsupplier⟩, fun s hs => ?_⟩⟩
    obtain ⟨hbuyer, u, hu, hmem⟩ := hsales s hs
    exact ⟨hbuyer, u, List.mem_cons_of_mem turn hu, hmem⟩

theorem meetDemand_entered {percent : ℚ} {turns : ℕ → List (List ℕ × Turn)}
    (h : meetDemand amountOf percent turns buyer m = some (m', sales)) :
    Entered false m m' sales ∧
      ∀ s ∈ sales, s.buyer = buyer ∧ ∃ turn ∈ turns s.buyer, s.supplier ∈ turn.1 := by
  obtain ⟨hentered, hsales⟩ := meetTurns_entered h
  refine ⟨hentered, fun s hs => ?_⟩
  obtain ⟨rfl, hturn⟩ := hsales s hs
  exact ⟨rfl, hturn⟩

end Turns

/-- The loops of a run, one after the other. -/
structure Stages (people : People) (p : Parameters) (d : Draws) (run : Run)
    (m₁ m₂ m₃ m₄ m₅ : Market) : Prop where
  retail : tradeAll (buyFrom (retailPurchases people) d.retail) people.retailCustomers
    zeroMarket = some (m₁, run.retail)
  wholesellers : tradeAll (buyFrom (wholesellerPurchases people) d.wholeseller)
    people.wholesellers m₁ = some (m₂, run.wholesellers)
  wholesellerDemand : tradeAll (wholesellerDemand people p d) people.wholesellers m₂ =
    some (m₃, run.wholesellerDemand)
  distributors : tradeAll (buyFrom (distributorPurchases people) d.distributor)
    people.distributors m₃ = some (m₄, run.distributors)
  distributorDemand : tradeAll (distributorDemand people p d) people.distributors m₄ =
    some (m₅, run.distributorDemand)
  growers : run.growers = people.growers.map (selfSale m₅ p.growerPercent)

theorem commercial_stages {order : SetOrder} {p : Parameters} {d : Draws} {run : Run}
    (h : commercial order p d = some run) : choosePeople order p d = some run.people ∧
      ∃ m₁ m₂ m₃ m₄ m₅, Stages run.people p d run m₁ m₂ m₃ m₄ m₅ := by
  simp only [commercial, Option.bind_eq_bind, Option.bind_eq_some_iff, Option.pure_def,
    Option.some.injEq] at h
  obtain ⟨people, hpeople, ⟨m₁, retail⟩, h₁, ⟨m₂, wholesellers⟩, h₂, ⟨m₃, demand⟩, h₃,
    ⟨m₄, distributors⟩, h₄, ⟨m₅, demand'⟩, h₅, rfl⟩ := h
  exact ⟨hpeople, m₁, m₂, m₃, m₄, m₅, h₁, h₂, h₃, h₄, h₅, rfl⟩

section Examples

/-- Sets that keep the order of their persons. -/
def chosenOrder : SetOrder := ⟨id, fun _ => .refl _⟩

def share (k n : ℕ) (h : k < n) : UnitDraw :=
  ⟨(k : ℚ) / n, by positivity,
    (div_lt_one (by exact_mod_cast (Nat.zero_le k).trans_lt h)).mpr (by exact_mod_cast h)⟩

def leastDraw : UnitDraw := share 0 1 one_pos

/-- Draws that choose growers and then wholesellers, as persons 0, 1 and so on. The wholesellers draw
`turns` for their first loop. -/
def smallMarket (growers wholesellers : ℕ) (turns : ℕ → List Turn) : Draws where
  growers := (List.finRange growers).map fun k : Fin growers =>
    [share k (growers + wholesellers) (k.2.trans_le (Nat.le_add_right _ _))]
  distributors := []
  wholesellers := (List.finRange wholesellers).map fun k : Fin wholesellers =>
    [share (growers + k) (growers + wholesellers) (Nat.add_lt_add_left k.2 growers)]
  retailCustomers := []
  retail _ := ⟨leastDraw, []⟩
  wholeseller b := ⟨leastDraw, turns b⟩
  wholesellerDemand _ := []
  distributor _ := ⟨leastDraw, []⟩
  distributorDemand _ := []

def smallParameters (growers wholesellers : ℕ) : Parameters :=
  ⟨growers + wholesellers, growers, 0, wholesellers, 0, 0, 0, 0⟩

/-- Six wholesellers buy 15 pounds from each other. -/
def sixWholesellers : Draws :=
  smallMarket 0 6 fun b => ((List.range 6).filter (· ≠ b)).map fun c => ⟨[c], leastDraw⟩

theorem sixWholesellers_run :
    ∃ run, commercial chosenOrder (smallParameters 0 6) sixWholesellers = some run :=
  Option.isSome_iff_exists.mp (by decide +kernel)

end Examples

end Commercial
