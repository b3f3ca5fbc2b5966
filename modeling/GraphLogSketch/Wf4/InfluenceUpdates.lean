import GraphLogSketch.Wf4.InfluentialNodes

/-! The maps of counts: what they add up to, their message, and their effect on the counters. -/
namespace Wf4
open ByteWords
variable {d : HostData} {l l' : UpdateMap} {u : GlobalNodeID × UInt64} {v w : GlobalNodeID}

/-- What the entries of a node add up to. -/
def UpdateMap.amount (l : UpdateMap) (v : GlobalNodeID) : ℕ :=
  (l.map fun u => if u.1 = v then u.2.toNat else 0).sum

namespace UpdateMap

@[simp] theorem amount_nil (v : GlobalNodeID) : amount [] v = 0 := rfl

@[simp] theorem amount_cons (u : GlobalNodeID × UInt64) (l : UpdateMap) (v : GlobalNodeID) :
    amount (u :: l) v = (if u.1 = v then u.2.toNat else 0) + amount l v := by
  simp [amount]

@[simp] theorem amount_append (l l' : UpdateMap) (v : GlobalNodeID) :
    amount (l ++ l') v = amount l v + amount l' v := by
  simp [amount]

theorem amount_perm (h : l.Perm l') (v : GlobalNodeID) : amount l v = amount l' v :=
  (h.map _).sum_eq

theorem amount_flatMap {α : Type} (xs : List α) (f : α → UpdateMap) (v : GlobalNodeID) :
    amount (xs.flatMap f) v = (xs.map fun x => amount (f x) v).sum := by
  induction xs with
  | nil => rfl
  | cons x xs ih => simp [ih]

theorem amount_eq_zero (h : ∀ u ∈ l, u.1 ≠ v) : amount l v = 0 := by
  induction l with
  | nil => rfl
  | cons u l ih =>
    rw [amount_cons, if_neg (h u List.mem_cons_self),
      ih fun x hx => h x (List.mem_cons_of_mem u hx)]

theorem amount_tryEmplace (hlt : amount l v + 1 < 2 ^ 64) (w : GlobalNodeID) :
    amount (tryEmplace v l) w = amount l w + if w = v then 1 else 0 := by
  induction l with
  | nil => simp [tryEmplace, eq_comm]
  | cons u l ih =>
    rw [amount_cons] at hlt
    unfold tryEmplace
    by_cases huv : u.1 = v
    · have hadd : (u.2 + 1).toNat = u.2.toNat + 1 := by
        rw [if_pos huv] at hlt
        rw [UInt64.toNat_add]
        apply Nat.mod_eq_of_lt
        rw [show (1 : UInt64).toNat = 1 from rfl]
        omega
      rw [if_pos huv, amount_cons, amount_cons, hadd, huv]
      by_cases hw : v = w
      · subst hw
        simp only [if_true]
        omega
      · simp [hw, Ne.symm hw]
    · rw [if_neg huv, amount_cons, amount_cons, ih (by omega), add_assoc]

theorem mem_tryEmplace (h : u ∈ tryEmplace v l) : u.1 = v ∨ ∃ x ∈ l, x.1 = u.1 := by
  induction l with
  | nil =>
    obtain rfl := List.mem_singleton.mp h
    exact Or.inl rfl
  | cons x l ih =>
    unfold tryEmplace at h
    split_ifs at h with hx
    · rcases List.mem_cons.mp h with rfl | h
      · exact Or.inl hx
      · exact Or.inr ⟨u, List.mem_cons_of_mem x h, rfl⟩
    · rcases List.mem_cons.mp h with rfl | h
      · exact Or.inr ⟨u, List.mem_cons_self, rfl⟩
      · rcases ih h with hu | ⟨y, hy, he⟩
        · exact Or.inl hu
        · exact Or.inr ⟨y, List.mem_cons_of_mem x hy, he⟩

theorem tryEmplace_nodup (h : (l.map Prod.fst).Nodup) :
    ((tryEmplace v l).map Prod.fst).Nodup := by
  induction l with
  | nil => exact List.nodup_singleton v
  | cons u l ih =>
    obtain ⟨hu, hl⟩ := List.nodup_cons.mp h
    unfold tryEmplace
    split_ifs with huv
    · exact h
    · rw [List.map_cons, List.nodup_cons]
      refine ⟨fun hmem => ?_, ih hl⟩
      obtain ⟨x, hx, he⟩ := List.mem_map.mp hmem
      rcases mem_tryEmplace hx with hxv | ⟨y, hy, hxy⟩
      · exact huv (he.symm.trans hxv)
      · exact hu (List.mem_map.mpr ⟨y, hy, hxy.trans he⟩)

end UpdateMap

theorem pairWords_get (l : UpdateMap) {i : ℕ} (hi : l[i]? = some u) :
    (l.flatMap fun u => [u.1, u.2])[2 * i]? = some u.1 ∧
      (l.flatMap fun u => [u.1, u.2])[2 * i + 1]? = some u.2 := by
  induction l generalizing i with
  | nil => simp at hi
  | cons x l ih =>
    cases i with
    | zero =>
      obtain rfl : x = u := by simpa using hi
      simp
    | succ i =>
      have hrest := ih (i := i) (by simpa using hi)
      simpa [Nat.mul_succ] using hrest

theorem pairWords_length (l : UpdateMap) :
    (l.flatMap fun u => [u.1, u.2]).length = 2 * l.length := by
  induction l with
  | nil => rfl
  | cons u l ih =>
    rw [List.flatMap_cons, List.length_append, ih, List.length_cons]
    simp only [List.length_cons, List.length_nil]
    omega

/-- The receiver reads the map that was serialised, in its order. -/
theorem incomingUpdates_updateMessage (hlen : l.length < 2 ^ 64) :
    incomingUpdates (updateMessage l) = l := by
  have hbytes : (serializeMap l).length = 8 * (2 * l.length + 1) := by
    rw [serializeMap, encodeWords_length, List.length_cons, pairWords_length]
  have hne : serializeMap l ≠ [] := by
    intro hnil
    rw [hnil] at hbytes
    simp at hbytes
  rw [updateMessage, if_neg hne, incomingUpdates]
  split_ifs with hshort
  · have hzero : l.length = 0 := by omega
    exact (List.eq_nil_of_length_eq_zero hzero).symm
  · have hword {i : ℕ} {w : UInt64}
        (hw : (UInt64.ofNat l.length :: l.flatMap fun u => [u.1, u.2])[i]? = some w) :
        wordAt (serializeMap l) (8 * i) = w := wordAt_encodeWords hw
    have hsize : (wordAt (serializeMap l) 0).toNat = l.length := by
      rw [show wordAt (serializeMap l) 0 = UInt64.ofNat l.length from hword (i := 0) rfl,
        UInt64.toNat_ofNat', Nat.mod_eq_of_lt hlen]
    rw [hsize]
    apply List.ext_getElem
    · simp
    · intro i hi hi'
      have hget := pairWords_get l (List.getElem?_eq_getElem hi')
      have hkey := hword (i := 2 * i + 1) hget.1
      have hval := hword (i := 2 * i + 1 + 1) hget.2
      rw [List.getElem_map, List.getElem_range, show 8 + 16 * i = 8 * (2 * i + 1) by omega,
        hkey, show 8 * (2 * i + 1) + 8 = 8 * (2 * i + 1 + 1) by omega, hval]

theorem HostData.lower_frequency (h : u.2.toNat ≤ (d u.1).frequency.toNat) (v : GlobalNodeID) :
    (d.lower u v).frequency.toNat + (if u.1 = v then u.2.toNat else 0) =
      (d v).frequency.toNat := by
  unfold lower
  by_cases hv : u.1 = v
  · subst hv
    rw [HostData.modify_self, if_pos rfl]
    have hsub := UInt64.toNat_sub_of_le _ _ (UInt64.le_iff_toNat_le.mpr h)
    simp only [hsub]
    omega
  · rw [HostData.modify_of_ne _ _ (Ne.symm hv), if_neg hv, Nat.add_zero]

/-- Updates that add up to no more than the counters lower them by what they add up to. -/
theorem HostData.foldl_lower (h : ∀ v, l.amount v ≤ (d v).frequency.toNat) (v : GlobalNodeID) :
    (l.foldl HostData.lower d v).frequency.toNat + l.amount v = (d v).frequency.toNat := by
  induction l generalizing d with
  | nil => rfl
  | cons u l ih =>
    have hu : u.2.toNat ≤ (d u.1).frequency.toNat := by
      have hle := h u.1
      rw [UpdateMap.amount_cons, if_pos rfl] at hle
      omega
    have hlower := lower_frequency hu
    have hrest := ih (d := d.lower u) fun w => by
      have hle := h w
      have hw := hlower w
      rw [UpdateMap.amount_cons] at hle
      omega
    have hv := hlower v
    rw [List.foldl_cons, UpdateMap.amount_cons]
    omega

/-- No update on the way takes more out of a counter than is in it. -/
theorem HostData.foldl_lower_prefix (h : ∀ v, (l ++ u :: l').amount v ≤ (d v).frequency.toNat) :
    u.2.toNat ≤ (l.foldl HostData.lower d u.1).frequency.toNat := by
  have hle := h u.1
  rw [UpdateMap.amount_append, UpdateMap.amount_cons, if_pos rfl] at hle
  have hfold := foldl_lower (l := l) (d := d) (fun v => by
    have hv := h v
    rw [UpdateMap.amount_append] at hv
    omega) u.1
  omega

end Wf4
