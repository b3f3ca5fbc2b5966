import GraphLogSketch.Wf4.DataSet

/-! The sales of coffee come out of the file of `commercial.py` as they went in: what the parser reads with
the topic of coffee are the sales of the market. -/
namespace Wf4
open Commercial ExtractNodes RecordFiles TextLines TextStreams

/-- A sale of the market as the parser reads it. -/
def readSale (s : Sale) : ParsedSale := ⟨s.amount, UInt64.ofNat s.supplier, UInt64.ofNat s.buyer, 8486⟩

/-- What the parser reads from a file of sales. -/
def parsedSales (wmdParseLine : List Char → Option ParsedSale) (f : TextFile) : List ParsedSale :=
  (records f).filterMap wmdParseLine

/-- A sale whose topic is not that of coffee. -/
def CopiedField (i : ℕ) (f : List Char) : Prop :=
  (i = 0 → f = "Sale".toList) ∧ (i = 3 → readOrZero stoull f ≠ some 8486)

section Coffee
variable {splitLine : List Char → Char → ℕ → List (List Char)} {stod : List Char → Option ℚ}
  {wmdParseLine : List Char → Option ParsedSale} {str : ℚ → List Char} {o : Orders}
  {saleFile : List Char} {a b : ℕ} {topic date amount line : List Char} {s : ParsedSale}

/-- The fields of a sale that was written. -/
theorem saleRecord_fields (hplain : ∀ f ∈ [topic, date, amount], ',' ∉ f) :
    (saleRecord a b [topic, date, [], [], amount]).splitOn ',' =
      ["Sale".toList, Nat.toDigits 10 a, Nat.toDigits 10 b, topic, date, [], [], amount] := by
  apply List.splitOn_intercalate
  · obtain ⟨htopic, hdate, hamount⟩ : _ ∧ _ ∧ _ := by simpa using hplain
    simp [htopic, hdate, hamount, (toDigits_plain a).1, (toDigits_plain b).1]
  · simp

theorem wmdParseLine_coffeeRecord (hsplit : SplitsFields splitLine)
    (hwmd : ParsesSales splitLine stod wmdParseLine) (hstr : ReadsAmounts stod str) {s : Sale}
    (hsupplier : s.supplier < 2 ^ 63 - 1) (hbuyer : s.buyer < 2 ^ 63 - 1)
    (hamount : stod (str s.amount) = some s.amount) :
    wmdParseLine (coffeeRecord str s) = some (readSale s) := by
  obtain ⟨hne, -, hcomma, -⟩ := hstr s.amount
  have hfields := saleRecord_fields (a := s.supplier) (b := s.buyer)
    (show ∀ f ∈ [coffee, [], str s.amount], ',' ∉ f by simp [coffee, hcomma])
  have hlen : ((coffeeRecord str s).splitOn ',').length = 8 := by
    rw [coffeeRecord, hfields]
    rfl
  have htoken {i : ℕ} (hi : i < 8) := hsplit.all (coffeeRecord str s) 8 hlen i hi
  simp only [field, coffeeRecord, hfields] at htoken
  have hread := stoull_toDigits (hsupplier.trans (by decide))
  have hread' := stoull_toDigits (hbuyer.trans (by decide))
  have htopic : readOrZero stoull coffee = some 8486 := by decide
  have hnumber : readOrZero stod (str s.amount) = some s.amount := by rw [readOrZero, if_neg hne, hamount]
  have h₁ := htoken (i := 1) (by decide)
  have h₂ := htoken (i := 2) (by decide)
  have h₃ := htoken (i := 3) (by decide)
  have h₇ := htoken (i := 7) (by decide)
  simp only [List.getD_cons_succ, List.getD_cons_zero] at h₁ h₂ h₃ h₇
  rw [hwmd _ (by rw [field, coffeeRecord, hfields]; rfl)]
  simp only [parsedSale, coffeeRecord, h₁, h₂, h₃, h₇, hread, hread', htopic, hnumber]
  rfl

theorem saleTexts_copiedField : SaleTexts CopiedField where
  kind := by simp [CopiedField]
  date _ := by simp [CopiedField]
  empty i hi := ⟨fun h => absurd hi (by omega), fun _ => by decide⟩

/-- A sale that is copied is not read as one of coffee. -/
theorem wmdParseLine_copied (hsplit : SplitsFields splitLine)
    (hwmd : ParsesSales splitLine stod wmdParseLine)
    (h : IsRecord 8 [1, 2] (2 ^ 63 - 1) CopiedField line) (hs : wmdParseLine line = some s) :
    s.topic ≠ 8486 := by
  obtain ⟨fields, rfl, hrow⟩ := h
  have hkind := (hrow.property 0 (by decide) (by decide)).1 rfl
  rw [hwmd _ (by rw [field, hrow.splitOn, hkind])] at hs
  simp only [parsedSale, Option.bind_eq_bind, Option.bind_eq_some_iff, Option.pure_def,
    Option.some.injEq] at hs
  obtain ⟨amount, -, src, -, dst, -, topic, htopic, rfl⟩ := hs
  rw [hsplit.all _ 8 (by rw [hrow.splitOn, hrow.length]) 3 (by decide), field, hrow.splitOn] at htopic
  intro heq
  exact (hrow.property 3 (by decide) (by decide)).2 rfl (htopic.trans (congrArg some heq))

/-- The sales of coffee that are read are those of the market. -/
theorem coffee_sales_read (hsplit : SplitsFields splitLine)
    (hwmd : ParsesSales splitLine stod wmdParseLine) (hstr : ReadsAmounts stod str) {p : Parameters}
    {socialDraws : List UnitDraw} {market : Commercial.Draws} {text : List Char}
    (hn : p.numPersons ≤ 2 ^ 63 - 1)
    (htopics : CopiedTopics (fun topic => (readOrZero stoull topic).isSome ∧
      readOrZero stoull topic ≠ some 8486) saleFile)
    (hamounts : ∀ run, commercial o.set p market = some run → ∀ s ∈ run.sales,
      stod (str s.amount) = some s.amount)
    (h : Commercial.main str o.set o.shuffleSales p socialDraws market saleFile = some text) :
    ∃ (f : TextFile) (run : Run), f.text = text ∧ commercial o.set p market = some run ∧
      ((parsedSales wmdParseLine f).filter fun s => s.topic = 8486).Perm (run.sales.map readSale) := by
  have hreadable : CopiedTopics (SaleField stod 3) saleFile := fun line hline hsale topic htopic hcoffee =>
    saleField_topic (htopics line hline hsale topic htopic hcoffee).1
  have hother : CopiedTopics (CopiedField 3) saleFile := fun line hline hsale topic htopic hcoffee => by
    simpa [CopiedField] using (htopics line hline hsale topic htopic hcoffee).2
  obtain ⟨f, copied, run, hf, hcopied, hrun, hperm, -⟩ := commercial_file o.shuffleSales_perm
    saleTexts_saleField hreadable (coffeeTexts_saleField hstr) hn (by decide) h
  have hrecords := wmdRecords_records saleTexts_copiedField hother (fun _ hline => hline) hn (by decide) (by simp) hcopied
  have hnone : (copied.filterMap wmdParseLine).filter (fun s => s.topic = 8486) = [] := by
    simp only [List.filter_eq_nil_iff, List.mem_filterMap, decide_eq_true_eq]
    rintro s ⟨line, hline, hs⟩
    exact wmdParseLine_copied hsplit hwmd (hrecords line hline) hs
  have hsales : (run.sales.map (coffeeRecord str)).filterMap wmdParseLine = run.sales.map readSale := by
    rw [List.filterMap_map, List.filterMap_eq_map_iff_forall_eq_some]
    intro s hs
    obtain ⟨hsupplier, hbuyer⟩ := commercial_lt hrun hs
    exact wmdParseLine_coffeeRecord hsplit hwmd hstr (hsupplier.trans_le hn) (hbuyer.trans_le hn)
      (hamounts run hrun s hs)
  refine ⟨f, run, hf, hrun, ?_⟩
  have hread := (hperm.filterMap wmdParseLine).filter
    fun s => s.topic = 8486
  rw [List.filterMap_append, List.filter_append, hnone, hsales, List.nil_append] at hread
  have hall : (run.sales.map readSale).filter (fun s => s.topic = 8486) = run.sales.map readSale := by
    simp [List.filter_eq_self, readSale]
  rwa [hall] at hread

end Coffee

theorem coffee_sales_read_two : ∃ text, Commercial.main wholeStr keptOrders.set keptOrders.shuffleSales
      (smallParameters 0 2) twoDraws.saleIds twoDraws.market twoSales = some text ∧
    ∃ (f : TextFile) (run : Run), f.text = text ∧
      commercial keptOrders.set (smallParameters 0 2) twoDraws.market = some run ∧
      ((parsedSales wholeParseLine f).filter fun s => s.topic = 8486).Perm
        (run.sales.map readSale) := by
  have hwhole : ∀ run ∈ commercial keptOrders.set (smallParameters 0 2) twoDraws.market, ∀ s ∈ run.sales,
      wholeStod (wholeStr s.amount) = some s.amount := by decide +kernel
  obtain ⟨text, htext⟩ := Option.isSome_iff_exists.mp (show (Commercial.main wholeStr keptOrders.set
    keptOrders.shuffleSales (smallParameters 0 2) twoDraws.saleIds twoDraws.market twoSales).isSome by
      decide +kernel)
  exact ⟨text, htext, coffee_sales_read splitsFields_splitAll parsesSales_whole readsAmounts_whole (by decide) (by
    unfold CopiedTopics
    decide) hwhole htext⟩

end Wf4
