import GraphLogSketch.Library.AtomicAdds
import GraphLogSketch.Library.LeastLoaded
import GraphLogSketch.Scripts.EdgeListConvert

/-! The loads of virtual hosts distributed over hosts: the lines of the input go around the virtual
hosts, and each virtual host goes to a host with the least load. `none` is a panic. -/
namespace GraphConvert
open TextStreams AtomicAdds LeastLoaded

section Scanner

/-- The largest line, with its end, that `bufio.Scanner` takes. -/
def maxScanTokenSize : ℕ := 64 * 1024

def dropCR (line : List Char) : List Char :=
  if line.getLast? = some '\r' then line.dropLast else line

/-- The lines that `bufio.Scanner` gives; characters are bytes. It stops at a line that is too long, and
there is no line behind the last line end. -/
def scanLines (inputFile : List Char) : List (List Char) :=
  let lines := inputFile.splitOn '\n'
  let lines := if lines.getLast? = some [] then lines.dropLast else lines
  (lines.takeWhile (·.length < maxScanTokenSize)).map dropCR

end Scanner

/-- What `sort.Slice` may make of the slices it is called for: the virtual hosts by falling loads, and
in each turn the hosts by rising ones. -/
structure SliceSorts where
  vhosts : List UInt64 → List UInt64
  hosts : ℕ → List UInt64 → List UInt64
  vhosts_perm : ∀ l, (vhosts l).Perm l
  vhosts_sorted : ∀ l, (vhosts l).Pairwise (· ≥ ·)
  hosts_perm : ∀ turn l, (hosts turn l).Perm l
  hosts_sorted : ∀ turn l, (hosts turn l).Pairwise (· ≤ ·)

/-- The loop over the lines. -/
def foldLines (vhosts : UInt64) : List (List Char) → List UInt64 → UInt64 → Option (List UInt64)
  | [], vhostDist, _ => some vhostDist
  | line :: lines, vhostDist, currVhost => do
    let i ← parseUint line
    if currVhost.toNat < vhostDist.length then
      foldLines vhosts lines (vhostDist.modify currVhost.toNat (· + i)) ((currVhost + 1) % vhosts)
    else none

/-- `hostDist[0] += v`. -/
def addToFirst (v : UInt64) : List UInt64 → Option (List UInt64)
  | [] => none
  | load :: hostDist => some ((load + v) :: hostDist)

/-- The loop over the virtual hosts. -/
def placeVhosts (sort : ℕ → List UInt64 → List UInt64) :
    ℕ → List UInt64 → List UInt64 → Option (List UInt64)
  | _, [], hostDist => some hostDist
  | turn, v :: vhostDist, hostDist => do
    let hostDist ← addToFirst v (sort turn hostDist)
    placeVhosts sort (turn + 1) vhostDist hostDist

/-- The loads of the hosts, in the order in which they are printed. -/
def hostLoads (sorts : SliceSorts) (inputFile : List Char) (vhosts hosts : UInt64) :
    Option (List UInt64) := do
  let vhostDist ← foldLines vhosts (scanLines inputFile) (List.replicate vhosts.toNat 0) 0
  placeVhosts sorts.hosts 0 (sorts.vhosts vhostDist) (List.replicate hosts.toNat 0)

def vdl2hdlConvert (sorts : SliceSorts) (inputFile : List Char) (vhosts hosts : UInt64) :
    Option (List Char) := do
  let hostDist ← hostLoads sorts inputFile vhosts hosts
  return hostDist.flatMap fun v => digits v ++ ['\n']

/-- What the lines add for the virtual hosts, from line number `i` on. -/
def lineAdds (vhosts : ℕ) (loads : List UInt64) (i : ℕ) : List (ℕ × ℕ) :=
  (loads.zipIdx i).map fun p => (p.2 % vhosts, p.1.toNat)

/-- The load of a virtual host: every `vhosts`-th line is its. -/
def vhostLoad (vhosts : ℕ) (loads : List UInt64) (h : ℕ) : ℕ := received (lineAdds vhosts loads 0) h

def largestVhostLoad (vhosts : ℕ) (loads : List UInt64) : ℕ :=
  (Finset.range vhosts).sup (vhostLoad vhosts loads)

theorem dropCR_toDigits (n : ℕ) : dropCR (Nat.toDigits 10 n) = Nat.toDigits 10 n := by
  unfold dropCR
  rw [if_neg]
  intro h
  have hdigit := Nat.isDigit_of_mem_toDigits (by decide) (by decide) (List.mem_of_getLast? h)
  exact absurd hdigit (by decide)

/-- No number is too long for the scanner. -/
theorem scanLines_numberLines (loads : List UInt64) :
    scanLines (numberLines (loads.map UInt64.toNat)) = loads.map digits := by
  have hshort : ∀ line ∈ loads.map digits, decide (line.length < maxScanTokenSize) = true := by
    intro line hline
    obtain ⟨n, -, rfl⟩ := List.mem_map.mp hline
    have hlen : (digits n).length ≤ 20 :=
      (Nat.length_toDigits_le_iff (by decide) (by decide)).mpr (n.toNat_lt.trans (by norm_num))
    exact decide_eq_true (hlen.trans_lt (by decide))
  have hlines : (loads.map UInt64.toNat).map (Nat.toDigits 10) = loads.map digits :=
    List.map_map ..
  unfold scanLines
  simp only [splitOn_numberLines, hlines, List.getLast?_concat, if_true, List.dropLast_concat]
  rw [List.takeWhile_eq_self_iff.mpr hshort, List.map_map]
  exact List.map_congr_left fun n _ => dropCR_toDigits n.toNat

section Lines
variable {vhosts : UInt64} {dist : List UInt64}

theorem toNat_add_of_sum {a x : UInt64} {total : ℕ} (ha : a.toNat + x.toNat ≤ total)
    (htotal : total < 2 ^ 64) : (a + x).toNat = a.toNat + x.toNat := by
  rw [UInt64.toNat_add, Nat.mod_eq_of_lt (ha.trans_lt htotal)]

/-- Adding to one of the loads, without overflow. -/
theorem modify_loads {c : ℕ} (hc : c < dist.length) {x : UInt64}
    (htotal : (dist.map UInt64.toNat).sum + x.toNat < 2 ^ 64) :
    ((dist.modify c (· + x)).map UInt64.toNat).sum = (dist.map UInt64.toNat).sum + x.toNat ∧
      ∀ h, ((dist.modify c (· + x)).getD h 0).toNat =
        (dist.getD h 0).toNat + if c = h then x.toNat else 0 := by
  obtain ⟨before, a, after, rfl, rfl, hmodify⟩ := List.exists_of_modify (· + x) hc
  have hsum : ((before ++ a :: after).map UInt64.toNat).sum =
      (before.map UInt64.toNat).sum + (a.toNat + (after.map UInt64.toNat).sum) := by
    simp
  rw [hsum] at htotal ⊢
  have hadd : (a + x).toNat = a.toNat + x.toNat := toNat_add_of_sum le_rfl (by omega)
  rw [hmodify]
  constructor
  · simp only [List.map_append, List.map_cons, List.sum_append, List.sum_cons, hadd]
    omega
  · intro h
    rcases lt_trichotomy h before.length with hlt | rfl | hgt
    · rw [if_neg (by omega), Nat.add_zero, List.getD_append _ _ _ _ hlt,
        List.getD_append _ _ _ _ hlt]
    · rw [if_pos rfl, List.getD_append_right _ _ _ _ le_rfl, List.getD_append_right _ _ _ _ le_rfl,
        Nat.sub_self, List.getD_cons_zero, List.getD_cons_zero, hadd]
    · obtain ⟨d, hd⟩ := Nat.exists_eq_add_of_lt hgt
      have hsub : h - before.length = d + 1 := by omega
      rw [if_neg (by omega), Nat.add_zero, List.getD_append_right _ _ _ _ hgt.le,
        List.getD_append_right _ _ _ _ hgt.le, hsub, List.getD_cons_succ, List.getD_cons_succ]

/-- The lines from number `i` on are folded into the virtual hosts. -/
theorem foldLines_digits (hvhosts : 0 < vhosts.toNat) (loads : List UInt64) (i : ℕ)
    (hlen : dist.length = vhosts.toNat)
    (htotal : (dist.map UInt64.toNat).sum + (loads.map UInt64.toNat).sum < 2 ^ 64) :
    ∃ dist', foldLines vhosts (loads.map digits) dist (UInt64.ofNat (i % vhosts.toNat)) =
        some dist' ∧ dist'.length = vhosts.toNat ∧
      (dist'.map UInt64.toNat).sum =
        (dist.map UInt64.toNat).sum + (loads.map UInt64.toNat).sum ∧
      ∀ h, (dist'.getD h 0).toNat =
        (dist.getD h 0).toNat + received (lineAdds vhosts.toNat loads i) h := by
  induction loads generalizing dist i with
  | nil => exact ⟨dist, rfl, hlen, by simp, fun h => rfl⟩
  | cons x loads ih =>
    have hk := vhosts.toNat_lt
    have hmod := Nat.mod_lt i hvhosts
    have hcurr : (UInt64.ofNat (i % vhosts.toNat)).toNat = i % vhosts.toNat :=
      UInt64.toNat_ofNat_of_lt' (hmod.trans hk)
    have hnext : (UInt64.ofNat (i % vhosts.toNat) + 1) % vhosts =
        UInt64.ofNat ((i + 1) % vhosts.toNat) := by
      rw [← UInt64.toNat_inj, UInt64.toNat_mod, UInt64.toNat_add, hcurr,
        UInt64.toNat_ofNat_of_lt' ((Nat.mod_lt _ hvhosts).trans hk)]
      show (i % vhosts.toNat + 1) % 2 ^ 64 % vhosts.toNat = _
      rw [Nat.mod_eq_of_lt (by omega : i % vhosts.toNat + 1 < 2 ^ 64), Nat.mod_add_mod]
    rw [List.map_cons, List.sum_cons] at htotal
    obtain ⟨hsum, hload⟩ := modify_loads (x := x)
      (show i % vhosts.toNat < dist.length by omega) (by omega)
    have hlength : (dist.modify (i % vhosts.toNat) (· + x)).length = vhosts.toNat := by
      rwa [List.length_modify]
    obtain ⟨dist', hfold, hlen', hsum', hload'⟩ := ih (i + 1) hlength (by omega)
    refine ⟨dist', ?_, hlen', ?_, fun h => ?_⟩
    · rw [List.map_cons, foldLines, parseUint_digits]
      simp only [Option.bind_eq_bind, Option.bind_some, hcurr]
      rw [if_pos (by omega), hnext, hfold]
    · rw [hsum', hsum, List.map_cons, List.sum_cons, Nat.add_assoc]
    · have hadds : lineAdds vhosts.toNat (x :: loads) i =
          (i % vhosts.toNat, x.toNat) :: lineAdds vhosts.toNat loads (i + 1) := rfl
      rw [hload', hload, hadds, received_cons, Nat.add_assoc]

end Lines

/-- Each virtual host goes to a host with the least load. -/
theorem placeVhosts_fills (sorts : SliceSorts) (turn : ℕ) (vhostDist hostDist : List UInt64)
    (hne : hostDist ≠ [])
    (htotal : (hostDist.map UInt64.toNat).sum + (vhostDist.map UInt64.toNat).sum < 2 ^ 64) :
    ∃ final, placeVhosts sorts.hosts turn vhostDist hostDist = some final ∧
      Fills (vhostDist.map UInt64.toNat) (hostDist.map UInt64.toNat) (final.map UInt64.toNat) := by
  induction vhostDist generalizing turn hostDist with
  | nil => exact ⟨hostDist, rfl, .nil _⟩
  | cons v vhostDist ih =>
    have hperm := sorts.hosts_perm turn hostDist
    have hsorted := sorts.hosts_sorted turn hostDist
    obtain ⟨least, rest, hslice⟩ := List.exists_cons_of_ne_nil
      (show sorts.hosts turn hostDist ≠ [] from fun hnil =>
        hne (List.nil_perm.mp (hnil ▸ hperm)))
    rw [hslice] at hperm hsorted
    have hsum := (hperm.map UInt64.toNat).sum_eq
    rw [List.map_cons, List.sum_cons] at hsum htotal
    have hadd : (least + v).toNat = least.toNat + v.toNat := toNat_add_of_sum le_rfl (by omega)
    obtain ⟨final, hplace, hfills⟩ := ih (turn + 1) ((least + v) :: rest) (List.cons_ne_nil _ _)
      (by rw [List.map_cons, List.sum_cons, hadd]; omega)
    refine ⟨final, ?_, ?_⟩
    · rw [placeVhosts, hslice]
      exact hplace
    · rw [List.map_cons, hadd] at hfills
      refine .cons (hperm.map UInt64.toNat) ?_ hfills
      intro b hb
      obtain ⟨host, hhost, rfl⟩ := List.mem_map.mp hb
      exact UInt64.le_iff_toNat_le.mp ((List.pairwise_cons.mp hsorted).1 host hhost)

/-- The virtual hosts that the lines fill hold their loads, none of them more than the largest. -/
theorem le_largestVhostLoad {vhosts : ℕ} {loads vhostDist : List UInt64}
    (hlen : vhostDist.length = vhosts)
    (hload : ∀ h, (vhostDist.getD h 0).toNat =
      ((List.replicate vhosts (0 : UInt64)).getD h 0).toNat + vhostLoad vhosts loads h) :
    ∀ v ∈ vhostDist, v.toNat ≤ largestVhostLoad vhosts loads := by
  intro v hv
  obtain ⟨h, hh, rfl⟩ := List.mem_iff_getElem.mp hv
  have hempty : ((List.replicate vhosts (0 : UInt64)).getD h 0).toNat = 0 := by
    rw [List.getD_eq_getElem?_getD, List.getElem?_replicate]
    split_ifs <;> rfl
  have hget := hload h
  rw [List.getD_eq_getElem _ _ hh, hempty, Nat.zero_add] at hget
  rw [hget]
  exact Finset.le_sup (f := vhostLoad vhosts loads) (Finset.mem_range.mpr (by omega))

/-- The loads of the hosts add up to the input, and no host is ahead of another one by more than the
largest load of a virtual host. -/
theorem vdl2hdlConvert_balanced (sorts : SliceSorts) (loads : List UInt64) (vhosts hosts : UInt64)
    (hvhosts : 1 ≤ vhosts) (hhosts : 1 ≤ hosts)
    (htotal : (loads.map UInt64.toNat).sum < 2 ^ 64) :
    ∃ hostDist : List ℕ,
      vdl2hdlConvert sorts (numberLines (loads.map UInt64.toNat)) vhosts hosts =
        some (numberLines hostDist) ∧
      hostDist.length = hosts.toNat ∧ hostDist.sum = (loads.map UInt64.toNat).sum ∧
      ∀ a ∈ hostDist, ∀ b ∈ hostDist, a ≤ b + largestVhostLoad vhosts.toNat loads := by
  have hpos : 0 < vhosts.toNat := UInt64.le_iff_toNat_le.mp hvhosts
  have hzero (n : ℕ) : ((List.replicate n (0 : UInt64)).map UInt64.toNat).sum = 0 := by simp
  obtain ⟨vhostDist, hfold, hlen, hsum, hload⟩ := foldLines_digits hpos loads 0
    (List.length_replicate (n := vhosts.toNat) (a := (0 : UInt64))) (by rw [hzero]; omega)
  rw [hzero, Nat.zero_add] at hsum
  have hsorted := (sorts.vhosts_perm vhostDist).map UInt64.toNat
  obtain ⟨final, hplace, hfills⟩ := placeVhosts_fills sorts 0 (sorts.vhosts vhostDist)
    (List.replicate hosts.toNat 0) (by
      have hhosts := UInt64.le_iff_toNat_le.mp hhosts
      exact List.ne_nil_of_length_pos (by rw [List.length_replicate]; exact hhosts))
    (by rw [hzero, hsorted.sum_eq, hsum]; omega)
  have hitems : ∀ v ∈ (sorts.vhosts vhostDist).map UInt64.toNat,
      v ≤ largestVhostLoad vhosts.toNat loads := by
    intro v hv
    obtain ⟨load, hmem, rfl⟩ := List.mem_map.mp (hsorted.mem_iff.mp hv)
    exact le_largestVhostLoad hlen hload load hmem
  refine ⟨final.map UInt64.toNat, ?_, ?_, ?_, ?_⟩
  · have hstart : UInt64.ofNat (0 % vhosts.toNat) = 0 := by rw [Nat.zero_mod]; rfl
    rw [hstart] at hfold
    unfold vdl2hdlConvert hostLoads
    rw [scanLines_numberLines, hfold]
    simp only [Option.bind_eq_bind, Option.bind_some, hplace, Option.pure_def]
    rw [numberLines, List.flatMap_map]
    rfl
  · rw [hfills.length, List.length_map, List.length_replicate]
  · rw [hfills.sum, hzero, Nat.zero_add, hsorted.sum_eq, hsum]
  · apply hfills.balanced _ hitems
    rw [List.map_replicate]
    exact balanced_replicate _ _ _

/-- Insertion sort does what is asked of the sorts. -/
def insertionSorts : SliceSorts where
  vhosts l := l.insertionSort (· ≥ ·)
  hosts _ l := l.insertionSort (· ≤ ·)
  vhosts_perm l := List.perm_insertionSort _ l
  vhosts_sorted l := List.pairwise_insertionSort _ l
  hosts_perm _ l := List.perm_insertionSort _ l
  hosts_sorted _ l := List.pairwise_insertionSort _ l

/-- Five lines for three virtual hosts and two hosts. -/
theorem vdl2hdlConvert_balanced_five : ∃ hostDist : List ℕ,
    vdl2hdlConvert insertionSorts (numberLines [5, 1, 2, 4, 1]) 3 2 =
        some (numberLines hostDist) ∧ hostDist.length = 2 ∧ hostDist.sum = 13 ∧
      ∀ a ∈ hostDist, ∀ b ∈ hostDist, a ≤ b + 9 :=
  vdl2hdlConvert_balanced insertionSorts [5, 1, 2, 4, 1] 3 2 (by decide) (by decide) (by decide)

end GraphConvert
