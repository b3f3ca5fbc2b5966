import Mathlib.Data.List.Basic

/-! Lists mapped by a function that can fail: the map fails when one of the calls does. -/
namespace PartialMaps
variable {α β : Type*} {f : α → Option β} {l : List α}

theorem mapM_cons_eq_some {a : α} {bs : List β} : (a :: l).mapM f = some bs ↔
    ∃ b rest, f a = some b ∧ l.mapM f = some rest ∧ bs = b :: rest := by
  simp only [List.mapM_cons, Option.bind_eq_bind, Option.bind_eq_some_iff, Option.pure_def,
    Option.some.injEq]
  constructor
  · rintro ⟨b, hb, rest, hrest, rfl⟩
    exact ⟨b, rest, hb, hrest, rfl⟩
  · rintro ⟨b, rest, hb, hrest, rfl⟩
    exact ⟨b, hb, rest, hrest, rfl⟩

/-- Every call succeeds, with a known result. -/
theorem mapM_eq_some {g : α → β} (h : ∀ a ∈ l, f a = some (g a)) : l.mapM f = some (l.map g) := by
  induction l with
  | nil => rfl
  | cons a l ih =>
    have hrest := ih fun b hb => h b (List.mem_cons_of_mem a hb)
    exact mapM_cons_eq_some.mpr ⟨g a, l.map g, h a List.mem_cons_self, hrest, rfl⟩

/-- Every call succeeds exactly when a condition holds, with a known result. -/
theorem mapM_eq_some_iff {P : α → Prop} {g : α → β} (h : ∀ a ∈ l, ∀ b, f a = some b ↔ P a ∧ b = g a)
    {bs : List β} : l.mapM f = some bs ↔ (∀ a ∈ l, P a) ∧ bs = l.map g := by
  induction l generalizing bs with
  | nil => simp [eq_comm]
  | cons a l ih =>
    obtain ⟨hhead, htail⟩ := List.forall_mem_cons.mp h
    rw [mapM_cons_eq_some, List.forall_mem_cons, List.map_cons]
    simp only [hhead, ih htail]
    constructor
    · rintro ⟨b, rest, ⟨ha, rfl⟩, ⟨hl, rfl⟩, rfl⟩
      exact ⟨⟨ha, hl⟩, rfl⟩
    · rintro ⟨⟨ha, hl⟩, rfl⟩
      exact ⟨_, _, ⟨ha, rfl⟩, ⟨hl, rfl⟩, rfl⟩

theorem length_of_mapM {bs : List β} (h : l.mapM f = some bs) : bs.length = l.length := by
  induction l generalizing bs with
  | nil =>
    cases h
    rfl
  | cons a l ih =>
    obtain ⟨b, rest, -, hrest, rfl⟩ := mapM_cons_eq_some.mp h
    rw [List.length_cons, List.length_cons, ih hrest]

/-- No call failed. -/
theorem exists_of_mapM {bs : List β} (h : l.mapM f = some bs) {a : α} (ha : a ∈ l) :
    ∃ b ∈ bs, f a = some b := by
  induction l generalizing bs with
  | nil => cases ha
  | cons c l ih =>
    obtain ⟨b, rest, hb, hrest, rfl⟩ := mapM_cons_eq_some.mp h
    rcases List.mem_cons.mp ha with rfl | ha
    · exact ⟨b, List.mem_cons_self, hb⟩
    · obtain ⟨b', hb', heq⟩ := ih hrest ha
      exact ⟨b', List.mem_cons_of_mem b hb', heq⟩

/-- Each result is that of a call. -/
theorem mem_of_mapM {bs : List β} (h : l.mapM f = some bs) {b : β} (hb : b ∈ bs) :
    ∃ a ∈ l, f a = some b := by
  induction l generalizing bs with
  | nil =>
    cases h
    cases hb
  | cons c l ih =>
    obtain ⟨b', rest, hb', hrest, rfl⟩ := mapM_cons_eq_some.mp h
    rcases List.mem_cons.mp hb with rfl | hb
    · exact ⟨c, List.mem_cons_self, hb'⟩
    · obtain ⟨a, ha, heq⟩ := ih hrest hb
      exact ⟨a, List.mem_cons_of_mem c ha, heq⟩

end PartialMaps
