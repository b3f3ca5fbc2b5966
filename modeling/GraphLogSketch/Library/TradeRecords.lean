import GraphLogSketch.Library.AtomicAdds

/-! Records of trades between parties, the accounts that are kept while trades are made, and turns in
which one party after the other buys. -/
namespace TradeRecords
open AtomicAdds
variable {ι M : Type*}

structure Trade (ι M : Type*) where
  supplier : ι
  buyer : ι
  amount : M
  deriving DecidableEq

/-- What every party bought and sold. -/
structure Accounts (ι M : Type*) where
  buys : ι → M
  sells : ι → M

/-- No supplier and buyer have more than one trade. -/
def Once (trades : List (Trade ι M)) : Prop := (trades.map fun t => (t.supplier, t.buyer)).Nodup

instance [DecidableEq ι] (trades : List (Trade ι M)) : Decidable (Once trades) := by
  unfold Once
  infer_instance

/-- One party after the other trades. -/
def tradeAll (turn : ι → Accounts ι M → Option (Accounts ι M × List (Trade ι M))) :
    List ι → Accounts ι M → Option (Accounts ι M × List (Trade ι M))
  | [], m => some (m, [])
  | i :: parties, m => do
    let (m, trades) ← turn i m
    let (m, rest) ← tradeAll turn parties m
    return (m, trades ++ rest)

theorem tradeAll_cons
    {turn : ι → Accounts ι M → Option (Accounts ι M × List (Trade ι M))} {parties : List ι}
    {m m' : Accounts ι M} {trades : List (Trade ι M)} {i : ι}
    (h : tradeAll turn (i :: parties) m = some (m', trades)) :
    ∃ mid own rest, turn i m = some (mid, own) ∧ tradeAll turn parties mid = some (m', rest) ∧
      trades = own ++ rest := by
  simp only [tradeAll, Option.bind_eq_bind, Option.bind_eq_some_iff, Option.pure_def,
    Option.some.injEq, Prod.mk.injEq] at h
  obtain ⟨⟨mid, own⟩, hown, ⟨last, rest⟩, hrest, rfl, rfl⟩ := h
  exact ⟨mid, own, rest, hown, hrest, rfl⟩

variable [DecidableEq ι]

/-- Trades are made once if no buyer has a supplier twice. -/
theorem once_iff {trades : List (Trade ι M)} :
    Once trades ↔ ∀ i, ((trades.filter fun t => t.buyer = i).map Trade.supplier).Nodup := by
  induction trades with
  | nil => simp [Once]
  | cons t trades ih =>
    have hpair : (t.supplier, t.buyer) ∉ (trades.map fun t => (t.supplier, t.buyer)) ↔
        t.supplier ∉ (trades.filter fun u => u.buyer = t.buyer).map Trade.supplier := by
      simp only [List.mem_map, List.mem_filter, decide_eq_true_eq, Prod.mk.injEq, not_exists,
        not_and]
      exact ⟨fun h u hu hs => h u hu.1 hs hu.2, fun h u hu hs hb => h u ⟨hu, hb⟩ hs⟩
    rw [Once, List.map_cons, List.nodup_cons, hpair, ← Once, ih]
    constructor
    · rintro ⟨hfresh, hrest⟩ i
      by_cases hi : t.buyer = i
      · rw [List.filter_cons_of_pos (by simpa using hi), List.map_cons]
        exact List.nodup_cons.mpr ⟨hi ▸ hfresh, hrest i⟩
      · rw [List.filter_cons_of_neg (by simpa using hi)]
        exact hrest i
    · intro h
      have hown := h t.buyer
      rw [List.filter_cons_of_pos (by simp), List.map_cons] at hown
      refine ⟨(List.nodup_cons.mp hown).1, fun i => ?_⟩
      by_cases hi : t.buyer = i
      · exact hi ▸ (List.nodup_cons.mp hown).2
      · have hother := h i
        rwa [List.filter_cons_of_neg (by simpa using hi)] at hother

variable [AddCommMonoid M]

def sold (trades : List (Trade ι M)) (i : ι) : M :=
  received (trades.map fun t => (t.supplier, t.amount)) i

def bought (trades : List (Trade ι M)) (i : ι) : M :=
  received (trades.map fun t => (t.buyer, t.amount)) i

namespace Accounts

def buy (i : ι) (amount : M) (m : Accounts ι M) : Accounts ι M :=
  { m with buys := Function.update m.buys i (m.buys i + amount) }

def sell (i : ι) (amount : M) (m : Accounts ι M) : Accounts ι M :=
  { m with sells := Function.update m.sells i (m.sells i + amount) }

end Accounts

section Totals
variable (trades trades' : List (Trade ι M)) (t : Trade ι M) (i : ι)

@[simp] theorem sold_nil : sold ([] : List (Trade ι M)) i = 0 := rfl

@[simp] theorem bought_nil : bought ([] : List (Trade ι M)) i = 0 := rfl

theorem sold_cons : sold (t :: trades) i = (if t.supplier = i then t.amount else 0) + sold trades i :=
  received_cons ..

theorem bought_cons :
    bought (t :: trades) i = (if t.buyer = i then t.amount else 0) + bought trades i :=
  received_cons ..

@[simp] theorem sold_append : sold (trades ++ trades') i = sold trades i + sold trades' i := by
  simp [sold, received_append]

@[simp] theorem bought_append :
    bought (trades ++ trades') i = bought trades i + bought trades' i := by
  simp [bought, received_append]

variable {trades i}

theorem sold_eq_zero (h : ∀ t ∈ trades, t.supplier ≠ i) : sold trades i = 0 := by
  have hnone : ((trades.map fun t => (t.supplier, t.amount)).filter fun a => a.1 = i) = [] := by
    simpa [List.filter_eq_nil_iff] using h
  rw [sold, received, hnone, List.map_nil, List.sum_nil]

theorem bought_eq_zero (h : ∀ t ∈ trades, t.buyer ≠ i) : bought trades i = 0 := by
  have hnone : ((trades.map fun t => (t.buyer, t.amount)).filter fun a => a.1 = i) = [] := by
    simpa [List.filter_eq_nil_iff] using h
  rw [bought, received, hnone, List.map_nil, List.sum_nil]

/-- The trades of a buyer are all that the buyer bought. -/
theorem bought_filter : bought (trades.filter fun t => t.buyer = i) i = bought trades i := by
  induction trades with
  | nil => rfl
  | cons t trades ih =>
    by_cases ht : t.buyer = i
    · rw [List.filter_cons_of_pos (by simpa using ht), bought_cons, bought_cons, ih]
    · rw [List.filter_cons_of_neg (by simpa using ht), bought_cons, if_neg ht, zero_add, ih]

end Totals

section Signs
variable {R : Type*} [AddCommMonoid R] [PartialOrder R] [IsOrderedAddMonoid R]
  {trades : List (Trade ι R)}

theorem sold_nonneg (h : ∀ t ∈ trades, 0 ≤ t.amount) (i : ι) : 0 ≤ sold trades i := by
  induction trades with
  | nil => exact le_rfl
  | cons t trades ih =>
    obtain ⟨ht, hrest⟩ := List.forall_mem_cons.mp h
    rw [sold_cons]
    split_ifs
    · exact add_nonneg ht (ih hrest)
    · exact add_nonneg le_rfl (ih hrest)

/-- A supplier sold at least what is in one of its trades. -/
theorem amount_le_sold (h : ∀ t ∈ trades, 0 ≤ t.amount) {t : Trade ι R} (ht : t ∈ trades) :
    t.amount ≤ sold trades t.supplier := by
  induction trades with
  | nil => cases ht
  | cons u trades ih =>
    obtain ⟨hu, hrest⟩ := List.forall_mem_cons.mp h
    rw [sold_cons]
    rcases List.mem_cons.mp ht with rfl | ht
    · rw [if_pos rfl]
      exact le_add_of_nonneg_right (sold_nonneg hrest _)
    · split_ifs
      · exact (ih hrest ht).trans (le_add_of_nonneg_left hu)
      · exact (ih hrest ht).trans (le_add_of_nonneg_left le_rfl)

end Signs

section Positive
variable {R : Type*} [AddCommMonoid R] [LinearOrder R] {trades : List (Trade ι R)}

theorem sum_sold (h : ∀ t ∈ trades, 0 ≤ t.amount) (i : ι) :
    ((trades.filter fun t => t.supplier = i ∧ 0 < t.amount).map Trade.amount).sum =
      sold trades i := by
  rw [sold, ← sum_positive (List.forall_mem_map.mpr h), List.filter_map, List.map_map]
  rfl

theorem sum_bought (h : ∀ t ∈ trades, 0 ≤ t.amount) (i : ι) :
    ((trades.filter fun t => t.buyer = i ∧ 0 < t.amount).map Trade.amount).sum =
      bought trades i := by
  rw [bought, ← sum_positive (List.forall_mem_map.mpr h), List.filter_map, List.map_map]
  rfl

end Positive

/-- Accounts after trades that all suppliers enter, and the buyers where purchases are counted. -/
structure Entered (counted : Bool) (m m' : Accounts ι M) (trades : List (Trade ι M)) : Prop where
  sells : ∀ i, m'.sells i = m.sells i + sold trades i
  buys : ∀ i, m'.buys i = m.buys i + if counted then bought trades i else 0

namespace Entered
variable {counted : Bool} {m m' m'' : Accounts ι M} {trades trades' : List (Trade ι M)}

theorem refl (m : Accounts ι M) : Entered counted m m [] :=
  ⟨fun i => (add_zero _).symm, fun i => by simp⟩

theorem append (h : Entered counted m m' trades) (h' : Entered counted m' m'' trades') :
    Entered counted m m'' (trades ++ trades') := by
  constructor
  · intro i
    rw [h'.sells, h.sells, sold_append, add_assoc]
  · intro i
    rw [h'.buys, h.buys]
    cases counted with
    | false => simp
    | true => simp [add_assoc]

/-- One trade is entered. -/
theorem single (counted : Bool) (m : Accounts ι M) (t : Trade ι M) :
    Entered counted m ((if counted then m.buy t.buyer t.amount else m).sell t.supplier t.amount)
      [t] := by
  have hupdate (f : ι → M) (j i : ι) :
      Function.update f j (f j + t.amount) i = f i + if j = i then t.amount else 0 := by
    by_cases hi : j = i
    · subst hi
      simp
    · simp [hi, Function.update_of_ne (Ne.symm hi)]
  constructor
  · intro i
    rw [sold_cons, sold_nil, add_zero]
    cases counted <;> exact hupdate m.sells t.supplier i
  · intro i
    rw [bought_cons, bought_nil, add_zero]
    cases counted with
    | false => exact (add_zero _).symm
    | true => exact hupdate m.buys t.buyer i

end Entered

section Turns
variable {counted : Bool} {turn : ι → Accounts ι M → Option (Accounts ι M × List (Trade ι M))}
  {parties : List ι} {m m' : Accounts ι M} {trades : List (Trade ι M)}

/-- What holds of the trades of each party holds of all trades. -/
theorem tradeAll_entered {P : Trade ι M → Prop}
    (hturn : ∀ i ∈ parties, ∀ {m m' trades}, turn i m = some (m', trades) →
      Entered counted m m' trades ∧ ∀ t ∈ trades, t.buyer = i ∧ P t)
    (h : tradeAll turn parties m = some (m', trades)) :
    Entered counted m m' trades ∧ ∀ t ∈ trades, t.buyer ∈ parties ∧ P t := by
  induction parties generalizing m trades with
  | nil =>
    cases h
    exact ⟨.refl _, by simp⟩
  | cons i parties ih =>
    obtain ⟨mid, own, rest, hown, hrest, rfl⟩ := tradeAll_cons h
    obtain ⟨hentered, htrades⟩ := hturn i List.mem_cons_self hown
    obtain ⟨hentered', htrades'⟩ :=
      ih (fun j hj => hturn j (List.mem_cons_of_mem i hj)) hrest
    refine ⟨hentered.append hentered', fun t ht => ?_⟩
    rcases List.mem_append.mp ht with ht | ht
    · obtain ⟨hbuyer, hP⟩ := htrades t ht
      exact ⟨by rw [hbuyer]; exact List.mem_cons_self, hP⟩
    · exact (htrades' t ht).imp_left (List.mem_cons_of_mem i)

/-- A party's trades are what its turn makes of the accounts after the trades before it. -/
theorem tradeAll_turn {P : Trade ι M → Prop}
    (hturn : ∀ i ∈ parties, ∀ {m m' trades}, turn i m = some (m', trades) →
      Entered counted m m' trades ∧ ∀ t ∈ trades, t.buyer = i ∧ P t)
    (hnodup : parties.Nodup) (h : tradeAll turn parties m = some (m', trades)) {i : ι}
    (hi : i ∈ parties) : ∃ before start last, Entered counted m start before ∧
      (∀ t ∈ before, t.buyer ≠ i ∧ P t) ∧
      turn i start = some (last, trades.filter fun t => t.buyer = i) := by
  induction parties generalizing m trades with
  | nil => cases hi
  | cons j parties ih =>
    obtain ⟨hj, hnodup⟩ := List.nodup_cons.mp hnodup
    obtain ⟨mid, own, rest, hown, hrest, rfl⟩ := tradeAll_cons h
    obtain ⟨hentered, htrades⟩ := hturn j List.mem_cons_self hown
    have hturn' := fun k hk => @hturn k (List.mem_cons_of_mem j hk)
    by_cases hij : j = i
    · subst hij
      -- nobody behind trades for this party again
      obtain ⟨-, hothers⟩ := tradeAll_entered hturn' hrest
      have hmine : (own.filter fun t => t.buyer = j) = own :=
        List.filter_eq_self.mpr fun t ht => decide_eq_true (htrades t ht).1
      have hnone : (rest.filter fun t => t.buyer = j) = [] := by
        rw [List.filter_eq_nil_iff]
        intro t ht
        have hbuyer := (hothers t ht).1
        simpa using fun heq : t.buyer = j => hj (heq ▸ hbuyer)
      refine ⟨[], m, mid, .refl m, by simp, ?_⟩
      rw [List.filter_append, hmine, hnone, List.append_nil, hown]
    · have hnone : (own.filter fun t => t.buyer = i) = [] := by
        rw [List.filter_eq_nil_iff]
        intro t ht
        simpa [(htrades t ht).1] using hij
      obtain ⟨before, start, last, hbefore, hbuyers, hrun⟩ := ih hturn' hnodup hrest
        ((List.mem_cons.mp hi).resolve_left (Ne.symm hij))
      refine ⟨own ++ before, start, last, hentered.append hbefore, fun t ht => ?_, ?_⟩
      · rcases List.mem_append.mp ht with ht | ht
        · obtain ⟨hbuyer, hP⟩ := htrades t ht
          exact ⟨by rw [hbuyer]; exact hij, hP⟩
        · exact hbuyers t ht
      · rw [List.filter_append, hnone, List.nil_append, hrun]

/-- A loop trades once if every party's turn has different suppliers. -/
theorem tradeAll_once_iff {P : Trade ι M → Prop}
    (hturn : ∀ i ∈ parties, ∀ {m m' trades}, turn i m = some (m', trades) →
      Entered counted m m' trades ∧ ∀ t ∈ trades, t.buyer = i ∧ P t)
    (hnodup : parties.Nodup) (h : tradeAll turn parties m = some (m', trades))
    {suppliers : ι → List ι}
    (hsuppliers : ∀ i ∈ parties, ∀ {m m' trades}, turn i m = some (m', trades) →
      trades.map Trade.supplier = suppliers i) :
    Once trades ↔ ∀ i ∈ parties, (suppliers i).Nodup := by
  have hown : ∀ i ∈ parties,
      (trades.filter fun t => t.buyer = i).map Trade.supplier = suppliers i := by
    intro i hi
    obtain ⟨_, _, _, -, -, hrun⟩ := tradeAll_turn hturn hnodup h hi
    exact hsuppliers i hi hrun
  obtain ⟨-, hbuyers⟩ := tradeAll_entered hturn h
  rw [once_iff]
  constructor
  · intro honce i hi
    rw [← hown i hi]
    exact honce i
  · intro hnodups i
    by_cases hi : i ∈ parties
    · rw [hown i hi]
      exact hnodups i hi
    · have hnone : (trades.filter fun t => t.buyer = i) = [] := by
        rw [List.filter_eq_nil_iff]
        intro t ht
        simpa using fun heq : t.buyer = i => hi (heq ▸ (hbuyers t ht).1)
      rw [hnone]
      exact List.nodup_nil

end Turns
end TradeRecords
