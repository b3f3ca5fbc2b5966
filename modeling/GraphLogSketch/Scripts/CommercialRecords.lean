import GraphLogSketch.Library.TextStreams
import GraphLogSketch.Scripts.CommercialBalance
import GraphLogSketch.Scripts.RecordFiles
import Mathlib.Data.List.DropRight

/-! The file of `commercial.py`: the sales of another data set, with persons drawn for its ids, and the
coffee records. Texts are ASCII. -/
namespace Commercial
open RejectionSampling TextLines ExtractNodes RecordFiles

/-- White space around a number. -/
def isStripped (c : Char) : Bool := TextStreams.isSpace c || ('\x1c' ≤ c && c ≤ '\x1f')

/-- `int`: digits, with single underscores between them, behind a sign. `none` is a value error. -/
def int (token : List Char) : Option ℤ :=
  let token := (token.dropWhile isStripped).rdropWhile isStripped
  let negative := token.head? = some '-'
  let groups := (if negative ∨ token.head? = some '+' then token.tail else token).splitOn '_'
  let n : ℤ := Nat.ofDigitChars 10 groups.flatten 0
  if ∀ g ∈ groups, g ≠ [] ∧ g.all Char.isDigit then some (if negative then -n else n) else none

/-- The dictionary `socialMap`, and the draws that are left. -/
structure SocialIds where
  socialMap : List (ℤ × ℕ)
  draws : List UnitDraw

/-- The person of an id: the one that it has, or one that is drawn. -/
def socialId (numPersons : ℕ) (p : ℤ) (ids : SocialIds) : Option (ℕ × SocialIds) :=
  match ids.socialMap.lookup p with
  | some t => some (t, ids)
  | none =>
    match ids.draws with
    | [] => none
    | r :: draws => some (person numPersons r, ⟨(p, person numPersons r) :: ids.socialMap, draws⟩)

def saleRecord (p₁ p₂ : ℕ) (rest : List (List Char)) : List Char :=
  [','].intercalate ("Sale".toList :: Nat.toDigits 10 p₁ :: Nat.toDigits 10 p₂ :: rest)

/-- The topic of coffee. -/
def coffee : List Char := "8486".toList

/-- A line of the other data set: a sale of something else than coffee is kept. -/
def wmdRecord (numPersons : ℕ) (line : List Char) (ids : SocialIds) :
    Option (List (List Char) × SocialIds) := do
  let fields := line.dropLast.splitOn ','
  if line.head? = some '#' ∨ fields.head? ≠ some "Sale".toList then return ([], ids)
  let topic ← fields[6]?
  if topic = coffee then return ([], ids)
  let p₁ ← int (fields.getD 1 [])
  let p₂ ← int (fields.getD 2 [])
  let (t₁, ids) ← socialId numPersons p₁ ids
  let (t₂, ids) ← socialId numPersons p₂ ids
  let date ← fields[7]?
  return ([saleRecord t₁ t₂ [topic, date, [], [], []]], ids)

def wmdRecords (numPersons : ℕ) : List (List Char) → SocialIds → Option (List (List Char))
  | [], ids => if ids.draws = [] then some [] else none
  | line :: rest, ids => do
    let (out, ids) ← wmdRecord numPersons line ids
    let more ← wmdRecords numPersons rest ids
    return out ++ more

/-- A coffee record, with the amount as a text. -/
def coffeeRecord (str : ℚ → List Char) (s : Sale) : List Char :=
  saleRecord s.supplier s.buyer [coffee, [], [], [], str s.amount]

/-- The schema information. -/
def header : List (List Char) :=
  ["#delimiter: ,".toList, "#columns:type,person,person,topic,date,lat,lon,amount".toList,
    "#types:STRING,UINT,UINT,UINT,USDATE,DOUBLE,DOUBLE,DOUBLE".toList]

/-- The sale file that is made of the text of the other data set. -/
def main (str : ℚ → List Char) (order : SetOrder) (shuffle : List (List Char) → List (List Char))
    (p : Parameters) (socialDraws : List UnitDraw) (d : Draws) (saleFile : List Char) :
    Option (List Char) := do
  let ls ← wmdRecords p.numPersons (lines (translate saleFile)) ⟨[], socialDraws⟩
  let run ← commercial order p d
  let saleOut := unlines (ls ++ run.sales.map (coffeeRecord str))
  return unlines header ++ (shuffle (lines (translate saleOut))).flatten

section People
variable {order : SetOrder} {p : Parameters} {d : Draws} {run : Run}

theorem mem_sampleDistinct {α : Type*} [DecidableEq α] {used samples : List α} {draws : List (List α)}
    (h : sampleDistinct used draws = some samples) {a : α} (ha : a ∈ samples) :
    ∃ l ∈ draws, a ∈ l := by
  induction draws generalizing used samples with
  | nil =>
    cases h
    cases ha
  | cons first rest ih =>
    simp only [sampleDistinct, Option.bind_eq_bind, Option.bind_eq_some_iff, Option.pure_def,
      Option.some.injEq] at h
    obtain ⟨b, hb, samples, hrest, rfl⟩ := h
    rcases List.mem_cons.mp ha with rfl | ha
    · exact ⟨first, List.mem_cons_self, mem_of_sample hb⟩
    · obtain ⟨l, hl, hmem⟩ := ih hrest ha
      exact ⟨l, List.mem_cons_of_mem first hl, hmem⟩

theorem choosePersons_lt {numPersons count : ℕ} {draws : List (List UnitDraw)}
    {chosenSet persons : List ℕ} (h : choosePersons numPersons count draws chosenSet = some persons)
    {v : ℕ} (hv : v ∈ persons) : v < numPersons := by
  unfold choosePersons at h
  split_ifs at h with hcount
  obtain ⟨l, hl, hmem⟩ := mem_sampleDistinct h hv
  obtain ⟨choices, hchoices, rfl⟩ := List.mem_map.mp hl
  obtain ⟨r, -, rfl⟩ := List.mem_map.mp hmem
  obtain ⟨hlen, hpos⟩ := not_or.mp hcount
  have hdraws : 0 < draws.length := List.length_pos_of_mem hchoices
  have hnum : 0 < numPersons := Nat.pos_of_ne_zero fun hzero => hpos ⟨hzero, by omega⟩
  exact person_lt le_rfl hnum r

/-- The people of a market are persons. -/
theorem choosePeople_lt {people : People} (h : choosePeople order p d = some people) {v : ℕ}
    (hv : v ∈ people.all) : v < p.numPersons := by
  simp only [choosePeople, Option.bind_eq_bind, Option.bind_eq_some_iff, Option.pure_def,
    Option.some.injEq] at h
  obtain ⟨growers, hgrowers, distributors, hdistributors, wholesellers, hwholesellers,
    retailCustomers, hretail, rfl⟩ := h
  simp only [People.all, List.mem_append, (order.perm _).mem_iff] at hv
  rcases hv with ((hv | hv) | hv) | hv
  · exact choosePersons_lt hgrowers hv
  · exact choosePersons_lt hdistributors hv
  · exact choosePersons_lt hwholesellers hv
  · exact choosePersons_lt hretail hv

/-- Those who trade are persons. -/
theorem commercial_lt (h : commercial order p d = some run) {s : Sale} (hs : s ∈ run.sales) :
    s.supplier < p.numPersons ∧ s.buyer < p.numPersons := by
  obtain ⟨hpeople, m₁, m₂, m₃, m₄, m₅, hstages⟩ := commercial_stages h
  have htiers := hstages.tiers
  have hall {a b : ℕ} (ha : a ∈ run.people.all) (hb : b ∈ run.people.all) :
      a < p.numPersons ∧ b < p.numPersons :=
    ⟨choosePeople_lt hpeople ha, choosePeople_lt hpeople hb⟩
  simp only [People.all, List.mem_append] at hall
  simp only [Run.sales, List.mem_append] at hs
  rcases hs with ((((hs | hs) | hs) | hs) | hs) | hs
  · obtain ⟨hbuyer, hsupplier⟩ := htiers.retail.2 s hs
    exact hall (by simp [hsupplier]) (by simp [hbuyer])
  · obtain ⟨hbuyer, hsupplier⟩ := htiers.wholesellers.2 s hs
    exact hall (by simp [hsupplier]) (by simp [hbuyer])
  · obtain ⟨hbuyer, hsupplier⟩ := htiers.wholesellerDemand.2 s hs
    exact hall (by rcases hsupplier with h | h <;> simp [h]) (by simp [hbuyer])
  · obtain ⟨hbuyer, hsupplier⟩ := htiers.distributors.2 s hs
    exact hall (by simp [hsupplier]) (by simp [hbuyer])
  · obtain ⟨hbuyer, hsupplier⟩ := htiers.distributorDemand.2 s hs
    exact hall (by simp [hsupplier]) (by simp [hbuyer])
  · rw [hstages.growers] at hs
    obtain ⟨grower, hgrower, rfl⟩ := List.mem_map.mp hs
    exact hall (by simp [selfSale, hgrower]) (by simp [selfSale, hgrower])

end People

/-- What is known of the texts in all sales. -/
structure SaleTexts (Property : ℕ → List Char → Prop) : Prop where
  kind : Property 0 "Sale".toList
  date : ∀ f, Property 4 f
  empty : ∀ i, 5 ≤ i → Property i []

/-- What is known of the topics of the sales that are copied. -/
def CopiedTopics (Property : List Char → Prop) (saleFile : List Char) : Prop :=
  ∀ line ∈ lines (translate saleFile), (line.dropLast.splitOn ',').head? = some "Sale".toList →
    ∀ topic ∈ (line.dropLast.splitOn ',')[6]?, topic ≠ coffee → Property topic

/-- What is known of the texts in the coffee records. -/
structure CoffeeTexts (Property : ℕ → List Char → Prop) (str : ℚ → List Char) : Prop where
  topic : Property 3 coffee
  amount : ∀ amount, Property 7 (str amount) ∧ ',' ∉ str amount ∧ '\n' ∉ str amount ∧ '\r' ∉ str amount

section Records
variable {numPersons bound : ℕ} {Property : ℕ → List Char → Prop} {str : ℚ → List Char}
  {saleFile text : List Char}

theorem isRecord_sale {a b : ℕ} {topic date amount : List Char} (hp : SaleTexts Property)
    (ha : a < bound) (hb : b < bound) (htopic : Property 3 topic) (hamount : Property 7 amount)
    (hplain : ∀ f ∈ [topic, date, amount], ',' ∉ f ∧ '\n' ∉ f ∧ '\r' ∉ f) :
    IsRecord 8 [1, 2] bound Property (saleRecord a b [topic, date, [], [], amount]) := by
  refine ⟨_, rfl, rfl, ?_, ?_, ?_, _, _, rfl, by decide⟩
  · intro i hi
    simp only [List.mem_cons, List.not_mem_nil, or_false] at hi
    rcases hi with rfl | rfl
    · exact ⟨a, ha, rfl⟩
    · exact ⟨b, hb, rfl⟩
  · intro i hi hcolumns
    simp only [List.mem_cons, List.not_mem_nil, or_false, not_or] at hcolumns
    obtain rfl | rfl | rfl | rfl | rfl | rfl : i = 0 ∨ i = 3 ∨ i = 4 ∨ i = 5 ∨ i = 6 ∨ i = 7 := by omega
    · exact hp.kind
    · exact htopic
    · exact hp.date date
    · exact hp.empty 5 le_rfl
    · exact hp.empty 6 (by decide)
    · exact hamount
  · obtain ⟨htopic, hdate, hamount⟩ : _ ∧ _ ∧ _ := by simpa using hplain
    intro f hf
    simp only [List.mem_cons, List.not_mem_nil, or_false] at hf
    rcases hf with rfl | rfl | rfl | rfl | rfl | rfl | rfl | rfl
    · decide
    · exact toDigits_plain a
    · exact toDigits_plain b
    · exact htopic
    · exact hdate
    · decide
    · decide
    · exact hamount

theorem socialId_lt {p : ℤ} {ids ids' : SocialIds} {t : ℕ} (hn : numPersons ≤ bound) (hbound : 0 < bound)
    (hids : ∀ e ∈ ids.socialMap, e.2 < bound) (h : socialId numPersons p ids = some (t, ids')) :
    t < bound ∧ ∀ e ∈ ids'.socialMap, e.2 < bound := by
  unfold socialId at h
  split at h
  · rename_i hlookup
    obtain ⟨rfl, rfl⟩ := Prod.mk.inj (Option.some.inj h)
    obtain ⟨l₁, l₂, heq, -⟩ := List.lookup_eq_some_iff.mp hlookup
    exact ⟨hids (p, _) (by simp [heq]), hids⟩
  · split at h
    · cases h
    · obtain ⟨rfl, rfl⟩ := Prod.mk.inj (Option.some.inj h)
      have ht := person_lt hn hbound
      exact ⟨ht _, List.forall_mem_cons.mpr ⟨ht _, hids⟩⟩

/-- A sale that is kept is a record, and its persons are added to the map. -/
theorem wmdRecord_records {line : List Char} {ids ids' : SocialIds} {out : List (List Char)}
    (hp : SaleTexts Property) (htopics : CopiedTopics (Property 3) saleFile)
    (hline : line ∈ lines (translate saleFile))
    (hn : numPersons ≤ bound) (hbound : 0 < bound) (hids : ∀ e ∈ ids.socialMap, e.2 < bound)
    (h : wmdRecord numPersons line ids = some (out, ids')) :
    (∀ l ∈ out, IsRecord 8 [1, 2] bound Property l) ∧ ∀ e ∈ ids'.socialMap, e.2 < bound := by
  unfold wmdRecord at h
  dsimp only at h
  split_ifs at h with hskip
  · obtain ⟨rfl, rfl⟩ := Prod.mk.inj (Option.some.inj h)
    exact ⟨by simp, hids⟩
  · obtain ⟨topic, htopic, h⟩ := Option.bind_eq_some_iff.mp h
    split_ifs at h with hcoffee
    · obtain ⟨rfl, rfl⟩ := Prod.mk.inj (Option.some.inj h)
      exact ⟨by simp, hids⟩
    · simp only [Option.bind_eq_bind, Option.bind_eq_some_iff, Option.pure_def, Option.some.injEq,
        Prod.mk.injEq] at h
      obtain ⟨p₁, -, p₂, -, ⟨t₁, ids₁⟩, h₁, ⟨t₂, ids₂⟩, h₂, date, hdate, rfl, rfl⟩ := h
      obtain ⟨ht₁, hids₁⟩ := socialId_lt hn hbound hids h₁
      obtain ⟨ht₂, hids₂⟩ := socialId_lt hn hbound hids₁ h₂
      obtain ⟨hnewline, hsub⟩ := mem_lines hline
      have hreturn : '\r' ∉ line.dropLast := fun hmem =>
        notMem_translate saleFile (hsub (List.mem_of_mem_dropLast hmem))
      have hfield {i : ℕ} {f : List Char} (hf : (line.dropLast.splitOn ',')[i]? = some f) :
          ',' ∉ f ∧ '\n' ∉ f ∧ '\r' ∉ f := by
        obtain ⟨hcomma, hfsub⟩ := mem_splitOn (List.mem_of_getElem? hf)
        exact ⟨hcomma, fun hmem => hnewline (hfsub hmem), fun hmem => hreturn (hfsub hmem)⟩
      have hsale := not_not.mp (not_or.mp hskip).2
      have hplain : ∀ f ∈ [topic, date, []], ',' ∉ f ∧ '\n' ∉ f ∧ '\r' ∉ f := by
        simpa using ⟨hfield htopic, hfield hdate⟩
      have hrecord := isRecord_sale hp ht₁ ht₂ (htopics line hline hsale topic htopic hcoffee)
        (hp.empty 7 (by decide)) hplain
      exact ⟨by simpa using hrecord, hids₂⟩

theorem wmdRecords_records {ls : List (List Char)} {ids : SocialIds} {out : List (List Char)}
    (hp : SaleTexts Property) (htopics : CopiedTopics (Property 3) saleFile)
    (hls : ∀ line ∈ ls, line ∈ lines (translate saleFile))
    (hn : numPersons ≤ bound) (hbound : 0 < bound) (hids : ∀ e ∈ ids.socialMap, e.2 < bound)
    (h : wmdRecords numPersons ls ids = some out) : ∀ l ∈ out, IsRecord 8 [1, 2] bound Property l := by
  induction ls generalizing ids out with
  | nil =>
    unfold wmdRecords at h
    split_ifs at h
    obtain rfl := Option.some.inj h
    simp
  | cons line ls ih =>
    obtain ⟨hline, hls⟩ := List.forall_mem_cons.mp hls
    simp only [wmdRecords, Option.bind_eq_bind, Option.bind_eq_some_iff, Option.pure_def,
      Option.some.injEq] at h
    obtain ⟨⟨first, ids'⟩, hfirst, more, hmore, rfl⟩ := h
    obtain ⟨hout, hids'⟩ := wmdRecord_records hp htopics hline hn hbound hids hfirst
    exact List.forall_mem_append.mpr ⟨hout, ih hls hids' hmore⟩

theorem header_comments : ∀ l ∈ header, '\n' ∉ l ∧ '\r' ∉ l ∧ l.head? = some '#' := by decide

/-- The file has the sales that are copied and those of coffee, between persons. -/
theorem commercial_file {order : SetOrder} {shuffle : List (List Char) → List (List Char)}
    (hshuffle : ∀ l, (shuffle l).Perm l) {p : Parameters} {socialDraws : List UnitDraw} {d : Draws}
    (hp : SaleTexts Property) (htopics : CopiedTopics (Property 3) saleFile)
    (hcoffee : CoffeeTexts Property str) (hn : p.numPersons ≤ bound) (hbound : 0 < bound)
    (h : main str order shuffle p socialDraws d saleFile = some text) :
    ∃ (f : TextFile) (copied : List (List Char)) (run : Run), f.text = text ∧
      wmdRecords p.numPersons (lines (translate saleFile)) ⟨[], socialDraws⟩ = some copied ∧
      commercial order p d = some run ∧
      (records f).Perm (copied ++ run.sales.map (coffeeRecord str)) ∧
      IdRecords 8 [1, 2] bound Property f := by
  simp only [main, Option.bind_eq_bind, Option.bind_eq_some_iff, Option.pure_def,
    Option.some.injEq] at h
  obtain ⟨copied, hcopied, run, hrun, rfl⟩ := h
  have hrecords : ∀ l ∈ copied ++ run.sales.map (coffeeRecord str),
      IsRecord 8 [1, 2] bound Property l := by
    intro l hl
    rcases List.mem_append.mp hl with hl | hl
    · exact wmdRecords_records hp htopics (fun _ hline => hline) hn hbound (by simp) hcopied l hl
    · obtain ⟨s, hs, rfl⟩ := List.mem_map.mp hl
      obtain ⟨hsupplier, hbuyer⟩ := commercial_lt hrun hs
      obtain ⟨hamount, hplain⟩ := hcoffee.amount s.amount
      apply isRecord_sale hp (hsupplier.trans_le hn) (hbuyer.trans_le hn) hcoffee.topic hamount
      simp [coffee, hplain]
  have hplain : ∀ l ∈ copied ++ run.sales.map (coffeeRecord str), '\n' ∉ l ∧ '\r' ∉ l := by
    intro l hl
    obtain ⟨fields, rfl, hrow⟩ := hrecords l hl
    exact hrow.notMem
  obtain ⟨written, hwritten, hperm⟩ := lines_shuffled hshuffle hplain
  obtain ⟨f, hf, hread, hids⟩ :=
    exists_file header_comments fun l hl => hrecords l (hperm.mem_iff.mp hl)
  exact ⟨f, copied, run, by rw [hf, hwritten, unlines_append], hcopied, hrun, hread ▸ hperm, hids⟩

end Records
end Commercial
