import Mathlib.Algebra.BigOperators.Group.List.Basic
import Mathlib.Algebra.Order.Monoid.Canonical.Defs
import Mathlib.Tactic

/-! Items put into bins, each into a bin with the least load. No bin gets ahead of another one by more
than the largest item, whatever the order of the items and the choice among equal bins. -/
namespace LeastLoaded
variable {α : Type*}

/-- No bin is ahead of another one by more than `M`. -/
def Balanced [Add α] [LE α] (M : α) (bins : List α) : Prop := ∀ a ∈ bins, ∀ b ∈ bins, a ≤ b + M

theorem Balanced.perm [Add α] [LE α] {M : α} {bins bins' : List α} (h : Balanced M bins)
    (hperm : bins'.Perm bins) : Balanced M bins' :=
  fun a ha b hb => h a (hperm.mem_iff.mp ha) b (hperm.mem_iff.mp hb)

/-- The items are put into the bins one by one. Only the loads of the bins matter, so these may be
moved around before each item. -/
inductive Fills [Add α] [LE α] : List α → List α → List α → Prop
  | nil (bins : List α) : Fills [] bins bins
  | cons {v least : α} {items bins rest final : List α} (hperm : (least :: rest).Perm bins)
      (hleast : ∀ b ∈ rest, least ≤ b) (hrest : Fills items ((least + v) :: rest) final) :
      Fills (v :: items) bins final

section Loads
variable [AddCommMonoid α] [LE α] {items bins final : List α}

theorem Fills.length (h : Fills items bins final) : final.length = bins.length := by
  induction h with
  | nil => rfl
  | cons hperm _ _ ih => rw [ih, ← hperm.length_eq, List.length_cons, List.length_cons]

/-- Nothing is lost. -/
theorem Fills.sum (h : Fills items bins final) : final.sum = bins.sum + items.sum := by
  induction h with
  | nil => rw [List.sum_nil, add_zero]
  | @cons v least items bins rest final hperm _ _ ih =>
    calc final.sum
        = least + v + rest.sum + items.sum := by rw [ih, List.sum_cons]
      _ = least + rest.sum + (v + items.sum) := by abel
      _ = bins.sum + (v :: items).sum := by rw [← hperm.sum_eq, List.sum_cons, List.sum_cons]

end Loads

section Balance
variable [AddCommMonoid α] [PartialOrder α] [CanonicallyOrderedAdd α]
  {M v least : α} {items bins rest final : List α}

theorem balanced_replicate (M : α) (n : ℕ) (a : α) : Balanced M (List.replicate n a) := by
  intro b hb c hc
  rw [List.eq_of_mem_replicate hb, List.eq_of_mem_replicate hc]
  exact le_self_add

variable [IsOrderedAddMonoid α]

/-- A bin with the least load may get an item. -/
theorem Balanced.place (h : Balanced M (least :: rest)) (hleast : ∀ b ∈ rest, least ≤ b)
    (hv : v ≤ M) : Balanced M ((least + v) :: rest) := by
  intro a ha b hb
  rcases List.mem_cons.mp ha with rfl | ha <;> rcases List.mem_cons.mp hb with rfl | hb
  · exact le_self_add
  · exact add_le_add (hleast b hb) hv
  · calc a ≤ least + M := h a (List.mem_cons_of_mem _ ha) least List.mem_cons_self
      _ ≤ least + v + M := add_le_add_left le_self_add M
  · exact h a (List.mem_cons_of_mem _ ha) b (List.mem_cons_of_mem _ hb)

theorem Fills.balanced (h : Fills items bins final) (hbins : Balanced M bins)
    (hitems : ∀ v ∈ items, v ≤ M) : Balanced M final := by
  induction h with
  | nil => exact hbins
  | cons hperm hleast _ ih =>
    apply ih
    · exact (hbins.perm hperm).place hleast (hitems _ List.mem_cons_self)
    · exact fun w hw => hitems w (List.mem_cons_of_mem _ hw)

end Balance
end LeastLoaded
