import GraphLogSketch.Library.Betweenness
import GraphLogSketch.Scea.LevelSssp
import GraphLogSketch.Scea.TriangleCounting

/-! Betweenness centrality: after the levels of a source are known, dependencies are pulled back along
the edges, level by level, and summed up over the sources. Scores are exact. -/
namespace Scea.BetweennessCentrality
open LevelSearch ShortestPaths
open scoped UInt64.CommRing

/-- What the scheduler decides, for each source and level: which task of the forward pass moves when,
and the order in which the backward pass gets to the vertices. -/
structure Interleaving where
  picks : ℕ → ℕ → List ℕ
  order : ℕ → ℕ → List ℕ → List ℕ
  perm : ∀ s level worklist, (order s level worklist).Perm worklist

structure Scores where
  dependency : ℕ → ℚ
  centralityScores : ℕ → ℚ

variable {σ : Type} (G : MutableGraph σ) (g : σ)

/-- The body of the loop `Brandes` for vertex `n`. -/
def visit (r : Sssp) (currentLevel n : ℕ) (s : Scores) : Option Scores :=
  if r.distance n = currentLevel then
    let succLevel := currentLevel + 1
    let summed := (G.forEachEdge g n).foldl (fun (dependency : ℕ → ℚ) dest =>
      if r.distance dest = succLevel then
        let contrib : ℚ := (1 + dependency dest) / (r.shortestPathCount dest).toNat
        Function.update dependency n (dependency n + contrib)
      else dependency) s.dependency
    let dependency := Function.update summed n (summed n * (r.shortestPathCount n).toNat)
    some ⟨dependency, Function.update s.centralityScores n (s.centralityScores n + dependency n)⟩
  else none

/-- The loop down to level 1. -/
def backward (order : ℕ → List ℕ → List ℕ) (r : Sssp) : ℕ → Scores → Option Scores
  | 0, s => some s
  | level + 1, s => do
    let currentLevel := level + 1
    let currentWorklist := r.stackOfWorklists.getD currentLevel []
    let s ← (order currentLevel currentWorklist).foldlM
      (fun s n => visit G g r currentLevel n s) s
    backward order r level s

/-- What one source adds to the scores. The other arrays are reset before. -/
def addSource (interleaving : Interleaving) (centralityScores : ℕ → ℚ) (s : ℕ) :
    Option (ℕ → ℚ) := do
  let r ← levelSSSP G g (interleaving.picks s) s (fun _ => infinity) (fun _ => 0)
  if 3 ≤ r.stackOfWorklists.length then
    let scores ← backward G g (interleaving.order s) r (r.stackOfWorklists.length - 3)
      ⟨fun _ => 0, centralityScores⟩
    return scores.centralityScores
  else return centralityScores

/-- All vertices, or the first `num_src` of them in a random order. -/
def selectSources (shuffle : List ℕ → List ℕ) (numSrc : ℕ) : List ℕ :=
  let sources := List.range (G.size g)
  if 0 < numSrc then (shuffle sources).take (min (G.size g) numSrc) else sources

/-- `none` is a failed assertion. -/
def compute (interleaving : Interleaving) (shuffle : List ℕ → List ℕ) (numSrc : ℕ) :
    Option (ℕ → ℚ) :=
  (selectSources G g shuffle numSrc).foldlM (addSource G g interleaving) fun _ => 0

variable {G g} {src n k level last : ℕ} {r : Sssp} {s : Scores}

/-- A search that has ended, with counts that fit: distances and counts are those of the graph. -/
structure Found (G : MutableGraph σ) (g : σ) (src last : ℕ) (r : Sssp) : Prop where
  searched : Searched G g src r last
  lt_last : ∀ {v m}, Distance (G.forEachEdge g) src v m → m < last
  last_lt : last < infinity
  fits : ∀ v, pathCount (G.forEachEdge g) src v < 2 ^ 64

namespace Found

theorem distance_eq (h : Found G g src last r) {v m : ℕ}
    (hv : Distance (G.forEachEdge g) src v m) : r.distance v = m :=
  (h.searched.complete.near hv (h.lt_last hv).le).1

theorem distance_iff (h : Found G g src last r) {v m : ℕ} (hm : m ≤ last) :
    r.distance v = m ↔ Distance (G.forEachEdge g) src v m := by
  refine ⟨fun hd => ?_, h.distance_eq⟩
  rcases near_or_beyond last v with ⟨j, hj, hv⟩ | hb
  · have heq := h.distance_eq hv
    have hjm : j = m := by omega
    exact hjm ▸ hv
  · have hinf := (h.searched.complete.beyond hb).1
    have hlast := h.last_lt
    omega

theorem count_eq (h : Found G g src last r) {v m : ℕ}
    (hv : Distance (G.forEachEdge g) src v m) :
    (r.shortestPathCount v).toNat = pathCount (G.forEachEdge g) src v := by
  rw [(h.searched.complete.near hv (h.lt_last hv).le).2, ← hv.pathCount]
  exact Nat.mod_eq_of_lt (h.fits v)

end Found

noncomputable def dependencyOf (G : MutableGraph σ) (g : σ) (src v : ℕ) : ℚ :=
  Betweenness.dependency (G.forEachEdge g) (Finset.range (G.size g)) src v

/-- A vertex depends on `x` and has its score raised by it. -/
def Scores.raise (s : Scores) (n : ℕ) (x : ℚ) : Scores :=
  ⟨Function.update s.dependency n x,
    Function.update s.centralityScores n (s.centralityScores n + x)⟩

/-- What the vertices beyond level `level` depend on is known, and their scores have been raised by it;
nothing has happened to the others. -/
structure Pulled (G : MutableGraph σ) (g : σ) (src level : ℕ) (old : ℕ → ℚ) (s : Scores) : Prop where
  beyond : ∀ {v m}, Distance (G.forEachEdge g) src v m → level < m →
    s.dependency v = dependencyOf G g src v ∧
      s.centralityScores v = old v + dependencyOf G g src v
  near : ∀ {v}, (∀ m, Distance (G.forEachEdge g) src v m → m ≤ level) →
    s.dependency v = 0 ∧ s.centralityScores v = old v

section Visit
variable {v : ℕ}

/-- The loop over the edges changes nothing but the sum of its vertex. -/
theorem foldl_contributions (p : ℕ → Prop) [DecidablePred p] (c : ℕ → ℚ) (n : ℕ) (dests : List ℕ)
    (dependency : ℕ → ℚ) (hself : ∀ dest ∈ dests, p dest → dest ≠ n) :
    dests.foldl (fun (dependency : ℕ → ℚ) dest =>
        if p dest then Function.update dependency n (dependency n + (1 + dependency dest) / c dest)
        else dependency) dependency =
      Function.update dependency n (dependency n + (dests.map fun dest =>
        if p dest then (1 + dependency dest) / c dest else 0).sum) := by
  induction dests generalizing dependency with
  | nil => simp
  | cons dest dests ih =>
    have hrest (d : ℕ) (hd : d ∈ dests) := hself d (List.mem_cons_of_mem dest hd)
    rw [List.foldl_cons]
    split_ifs with hp
    · have hsame : (dests.map fun d => if p d then (1 + Function.update dependency n
            (dependency n + (1 + dependency dest) / c dest) d) / c d else 0) =
          dests.map fun d => if p d then (1 + dependency d) / c d else 0 := by
        apply List.map_congr_left
        intro d hd
        split_ifs with hpd
        · rw [Function.update_of_ne (hrest d hd hpd)]
        · rfl
      rw [ih _ hrest, hsame, Function.update_self, Function.update_idem, List.map_cons,
        List.sum_cons, if_pos hp, add_assoc]
    · rw [ih _ hrest, List.map_cons, List.sum_cons, if_neg hp, zero_add]

variable (hclosed : WithinGraph G g) (hsrc : src < G.size g) (h : Found G g src last r)
include hclosed hsrc h

/-- What the code sums up over the edges of a vertex is what its dependency is made of. -/
theorem dependencyOf_eq (hk : 0 < k) (hn : Distance (G.forEachEdge g) src n k) :
    dependencyOf G g src n = ((G.forEachEdge g n).map fun dest =>
      if r.distance dest = k + 1 then
        (1 + dependencyOf G g src dest) / ((r.shortestPathCount dest).toNat : ℚ) else 0).sum *
          (r.shortestPathCount n).toNat := by
  have hmem := hclosed.mem_of_walk (Finset.mem_range.mpr hsrc) hn.1
  rw [h.count_eq hn, dependencyOf, Betweenness.dependency_eq_sum hclosed hmem hn hk, mul_comm]
  congr 2
  apply List.map_congr_left
  intro dest _
  have hlast := h.lt_last hn
  have hiff := h.distance_iff (v := dest) (show k + 1 ≤ last from hlast)
  by_cases hd : Distance (G.forEachEdge g) src dest (k + 1)
  · rw [if_pos hd, if_pos (hiff.mpr hd), h.count_eq hd]
    rfl
  · rw [if_neg hd, if_neg fun heq => hd (hiff.mp heq)]

/-- Visiting a vertex whose successors are done finds its dependency and adds it to its score. -/
theorem visit_eq (hk : 0 < k) (hn : Distance (G.forEachEdge g) src n k) (hzero : s.dependency n = 0)
    (hsucc : ∀ d, Distance (G.forEachEdge g) src d (k + 1) →
      s.dependency d = dependencyOf G g src d) :
    visit G g r k n s = some (s.raise n (dependencyOf G g src n)) := by
  have hdist := h.distance_eq hn
  have hiff (d : ℕ) := h.distance_iff (v := d) (show k + 1 ≤ last from h.lt_last hn)
  have hself (d : ℕ) (_ : d ∈ G.forEachEdge g n) (hd : r.distance d = k + 1) : d ≠ n := by
    rintro rfl
    omega
  have hsum : ((G.forEachEdge g n).map fun dest => if r.distance dest = k + 1 then
      (1 + s.dependency dest) / ((r.shortestPathCount dest).toNat : ℚ) else 0) =
        (G.forEachEdge g n).map fun dest => if r.distance dest = k + 1 then
          (1 + dependencyOf G g src dest) / ((r.shortestPathCount dest).toNat : ℚ) else 0 := by
    apply List.map_congr_left
    intro dest _
    split_ifs with hd
    · rw [hsucc dest ((hiff dest).mp hd)]
    · rfl
  have hloop := foldl_contributions (fun d => r.distance d = k + 1)
    (fun d => ((r.shortestPathCount d).toNat : ℚ)) n (G.forEachEdge g n) s.dependency hself
  rw [visit, if_pos hdist, Scores.raise]
  simp only [hloop, hzero, zero_add, hsum, Function.update_self, Function.update_idem,
    ← dependencyOf_eq hclosed hsrc h hk hn]

/-- A whole level of the backward pass, in any order. -/
theorem foldlM_visit (hk : 0 < k) {worklist : List ℕ} (hnodup : worklist.Nodup)
    (hlevel : ∀ n ∈ worklist, Distance (G.forEachEdge g) src n k ∧ s.dependency n = 0)
    (hsucc : ∀ d, Distance (G.forEachEdge g) src d (k + 1) →
      s.dependency d = dependencyOf G g src d) :
    ∃ s', worklist.foldlM (fun s n => visit G g r k n s) s = some s' ∧
      (∀ n ∈ worklist, s'.dependency n = dependencyOf G g src n ∧
        s'.centralityScores n = s.centralityScores n + dependencyOf G g src n) ∧
      ∀ n ∉ worklist, s'.dependency n = s.dependency n ∧
        s'.centralityScores n = s.centralityScores n := by
  induction worklist generalizing s with
  | nil => exact ⟨s, rfl, fun n hn => absurd hn List.not_mem_nil, fun n _ => ⟨rfl, rfl⟩⟩
  | cons a worklist ih =>
    obtain ⟨ha, hnodup⟩ := List.nodup_cons.mp hnodup
    obtain ⟨hdist, hzero⟩ := hlevel a List.mem_cons_self
    have hvisit := visit_eq hclosed hsrc h hk hdist hzero hsucc
    have hne (n : ℕ) (hn : n ∈ worklist) : n ≠ a := fun heq => ha (heq ▸ hn)
    have hzeros (n : ℕ) (hn : n ∈ worklist) : Distance (G.forEachEdge g) src n k ∧
        (s.raise a (dependencyOf G g src a)).dependency n = 0 := by
      obtain ⟨hd, hz⟩ := hlevel n (List.mem_cons_of_mem a hn)
      exact ⟨hd, (Function.update_of_ne (hne n hn) _ _).trans hz⟩
    have hsuccs (d : ℕ) (hd : Distance (G.forEachEdge g) src d (k + 1)) :
        (s.raise a (dependencyOf G g src a)).dependency d = dependencyOf G g src d := by
      have hda : d ≠ a := by
        rintro rfl
        have heq := hd.unique hdist
        omega
      exact (Function.update_of_ne hda _ _).trans (hsucc d hd)
    obtain ⟨s', hrun, hdone, hrest⟩ := ih hnodup hzeros hsuccs
    refine ⟨s', ?_, fun n hn => ?_, fun n hn => ?_⟩
    · rw [List.foldlM_cons, hvisit]
      exact hrun
    · rcases List.mem_cons.mp hn with rfl | hn
      · obtain ⟨hd, hs⟩ := hrest n ha
        exact ⟨hd.trans (Function.update_self ..), hs.trans (Function.update_self ..)⟩
      · obtain ⟨hd, hs⟩ := hdone n hn
        refine ⟨hd, hs.trans ?_⟩
        show Function.update s.centralityScores a _ n + _ = _
        rw [Function.update_of_ne (hne n hn)]
    · have hna : n ≠ a := List.ne_of_not_mem_cons hn
      obtain ⟨hd, hs⟩ := hrest n (List.not_mem_of_not_mem_cons hn)
      exact ⟨hd.trans (Function.update_of_ne hna _ _), hs.trans (Function.update_of_ne hna _ _)⟩

/-- One level less to go: the dependencies of the next level are known. -/
theorem Pulled.next {old : ℕ → ℚ} (hs : Pulled G g src (level + 1) old s)
    {worklist : List ℕ}
    (hworklist : IsLevel (G.forEachEdge g) src (level + 1) (Multiset.ofList worklist)) :
    ∃ s', worklist.foldlM (fun s n => visit G g r (level + 1) n s) s = some s' ∧
      Pulled G g src level old s' := by
  have hmem (n : ℕ) : n ∈ worklist ↔ Distance (G.forEachEdge g) src n (level + 1) :=
    hworklist.mem_iff
  have hzero (n : ℕ) (hn : n ∈ worklist) := hs.near (v := n) fun m hm =>
    (hm.unique ((hmem n).mp hn)).le
  obtain ⟨s', hrun, hdone, hrest⟩ := foldlM_visit hclosed hsrc h (Nat.succ_pos level)
    (Multiset.coe_nodup.mp hworklist.nodup) (fun n hn => ⟨(hmem n).mp hn, (hzero n hn).1⟩)
    fun d hd => (hs.beyond hd (Nat.lt_succ_self _)).1
  refine ⟨s', hrun, ⟨?_, ?_⟩⟩
  · intro v m hv hm
    rcases Nat.eq_or_lt_of_le (Nat.succ_le_of_lt hm) with rfl | hlt
    · have hv' := (hmem v).mpr hv
      rw [← (hzero v hv').2]
      exact hdone v hv'
    · have hne : v ∉ worklist := by
        intro hv'
        have heq := hv.unique ((hmem v).mp hv')
        omega
      rw [(hrest v hne).1, (hrest v hne).2]
      exact hs.beyond hv hlt
  · intro v hv
    have hne : v ∉ worklist := by
      intro hv'
      have hle := hv _ ((hmem v).mp hv')
      omega
    rw [(hrest v hne).1, (hrest v hne).2]
    exact hs.near fun m hm => (hv m hm).trans (Nat.le_succ level)

theorem backward_pulled {order : ℕ → List ℕ → List ℕ}
    (hperm : ∀ level worklist, (order level worklist).Perm worklist) (hlast : level ≤ last)
    {old : ℕ → ℚ} (hs : Pulled G g src level old s) :
    ∃ s', backward G g order r level s = some s' ∧ Pulled G g src 0 old s' := by
  induction level generalizing s with
  | zero => exact ⟨s, rfl, hs⟩
  | succ level ih =>
    have hworklist : IsLevel (G.forEachEdge g) src (level + 1)
        (Multiset.ofList (order (level + 1) (r.stackOfWorklists.getD (level + 1) []))) := by
      rw [Multiset.coe_eq_coe.mpr (hperm _ _)]
      exact h.searched.level _ hlast
    obtain ⟨s₁, hrun, hs₁⟩ := hs.next hclosed hsrc h hworklist
    obtain ⟨s', hrest, hs'⟩ := ih (Nat.le_of_succ_le hlast) hs₁
    refine ⟨s', ?_, hs'⟩
    rw [backward]
    simp only [hrun, Option.bind_eq_bind, Option.bind_some]
    exact hrest

/-- The deepest vertices depend on nothing: no edge leads further away. -/
theorem dependencyOf_last {v : ℕ} (hv : Distance (G.forEachEdge g) src v k) (hk : 0 < k)
    (hlast : k + 1 = last) : dependencyOf G g src v = 0 := by
  rw [dependencyOf_eq hclosed hsrc h hk hv]
  have hnone : ((G.forEachEdge g v).map fun dest => if r.distance dest = k + 1 then
      (1 + dependencyOf G g src dest) / ((r.shortestPathCount dest).toNat : ℚ) else 0).sum = 0 := by
    apply List.sum_eq_zero
    intro x hx
    obtain ⟨dest, -, rfl⟩ := List.mem_map.mp hx
    rw [if_neg]
    intro hd
    have hlt := h.lt_last ((h.distance_iff hlast.le).mp hd)
    omega
  rw [hnone, zero_mul]

/-- A source adds to each other vertex what this depends on. -/
theorem backward_result (interleaving : Interleaving) (old : ℕ → ℚ)
    (hlong : 3 ≤ r.stackOfWorklists.length) :
    ∃ s', backward G g (interleaving.order src) r (r.stackOfWorklists.length - 3)
        ⟨fun _ => 0, old⟩ = some s' ∧ Pulled G g src 0 old s' := by
  have hlen := h.searched.length
  apply backward_pulled hclosed hsrc h (interleaving.perm src) (by omega)
  refine ⟨fun {v m} hv hm => ?_, fun _ => ⟨rfl, rfl⟩⟩
  have hlt := h.lt_last hv
  have hzero := dependencyOf_last hclosed hsrc h hv (by omega) (by omega)
  rw [hzero, add_zero]
  exact ⟨rfl, rfl⟩

end Visit

section Result
variable (hclosed : WithinGraph G g) (hsize : 8 * G.size g ≤ 2 ^ 64)
include hclosed hsize

theorem levelSSSP_found (hsrc : src < G.size g)
    (hfits : ∀ v, pathCount (G.forEachEdge g) src v < 2 ^ 64) (picks : ℕ → List ℕ) :
    ∃ r last, levelSSSP G g picks src (fun _ => infinity) (fun _ => 0) = some r ∧
      Found G g src last r := by
  obtain ⟨r, last, hrun, hr, hlast⟩ := levelSSSP_ended hclosed hsize hsrc picks
  exact ⟨r, last, hrun, hr.searched, hr.lt_last, hlast, hfits⟩

/-- What a source adds to the score of each vertex. -/
theorem addSource_result (hsrc : src < G.size g)
    (hfits : ∀ v, pathCount (G.forEachEdge g) src v < 2 ^ 64) (interleaving : Interleaving)
    (old : ℕ → ℚ) : ∃ scores, addSource G g interleaving old src = some scores ∧
      ∀ v, scores v = old v + if src = v then 0 else dependencyOf G g src v := by
  obtain ⟨r, last, hrun, h⟩ := levelSSSP_found hclosed hsize hsrc hfits (interleaving.picks src)
  by_cases hlong : 3 ≤ r.stackOfWorklists.length
  · obtain ⟨s', hback, hs'⟩ := backward_result hclosed hsrc h interleaving old hlong
    refine ⟨s'.centralityScores, ?_, fun v => ?_⟩
    · simp only [addSource, hrun, Option.bind_eq_bind, Option.bind_some, if_pos hlong, hback]
      rfl
    · by_cases hv : ∃ m, 0 < m ∧ Distance (G.forEachEdge g) src v m
      · obtain ⟨m, hm, hd⟩ := hv
        have hne : src ≠ v := by
          intro heq
          have h0 := hd.unique (distance_zero_iff.mpr heq)
          omega
        rw [(hs'.beyond hd hm).2, if_neg hne]
      · have hnear (m : ℕ) (hd : Distance (G.forEachEdge g) src v m) : m ≤ 0 := by
          by_contra hm
          exact hv ⟨m, not_le.mp hm, hd⟩
        rw [(hs'.near hnear).2]
        split_ifs with heq
        · rw [add_zero]
        · have hnot : ¬ Reaches (G.forEachEdge g) src v := by
            intro hr
            obtain ⟨m, hd⟩ := hr.exists_distance
            obtain rfl := Nat.le_zero.mp (hnear m hd)
            exact heq (distance_zero_iff.mp hd)
          rw [dependencyOf, Betweenness.dependency_of_not_reaches hnot, add_zero]
  · refine ⟨old, ?_, fun v => ?_⟩
    · simp only [addSource, hrun, Option.bind_eq_bind, Option.bind_some, if_neg hlong]
      rfl
    · split_ifs with heq
      · rw [add_zero]
      · have hnot : ¬ Reaches (G.forEachEdge g) src v := by
          intro hr
          obtain ⟨m, hd⟩ := hr.exists_distance
          have hlt := h.lt_last hd
          have hlen := h.searched.length
          obtain rfl : m = 0 := by omega
          exact heq (distance_zero_iff.mp hd)
        rw [dependencyOf, Betweenness.dependency_of_not_reaches hnot, add_zero]

theorem foldlM_addSource (interleaving : Interleaving) {sources : List ℕ}
    (hsources : ∀ src ∈ sources, src < G.size g ∧
      ∀ v, pathCount (G.forEachEdge g) src v < 2 ^ 64) (old : ℕ → ℚ) :
    ∃ scores, sources.foldlM (addSource G g interleaving) old = some scores ∧
      ∀ v, scores v = old v + Betweenness.betweenness (G.forEachEdge g) (Finset.range (G.size g))
        sources v := by
  apply Betweenness.foldlM_dependency
  intro src hmem old
  obtain ⟨hsrc, hfits⟩ := hsources src hmem
  exact addSource_result hclosed hsize hsrc hfits interleaving old

end Result

theorem mem_selectSources {shuffle : List ℕ → List ℕ} (hshuffle : ∀ l, (shuffle l).Perm l)
    {numSrc src : ℕ} (hsrc : src ∈ selectSources G g shuffle numSrc) : src < G.size g := by
  rw [selectSources] at hsrc
  split_ifs at hsrc
  · exact List.mem_range.mp ((hshuffle _).mem_iff.mp (List.mem_of_mem_take hsrc))
  · exact List.mem_range.mp hsrc

/-- Whatever the interleavings and the random order, `compute` ends with the betweenness of every
vertex over the selected sources, no assertion failed. -/
theorem compute_result (G : MutableGraph σ) (g : σ) (hclosed : WithinGraph G g)
    (hsize : 8 * G.size g ≤ 2 ^ 64) (interleaving : Interleaving) (shuffle : List ℕ → List ℕ)
    (hshuffle : ∀ l, (shuffle l).Perm l) (numSrc : ℕ)
    (hfits : ∀ src ∈ selectSources G g shuffle numSrc, ∀ v < G.size g,
      pathCount (G.forEachEdge g) src v < 2 ^ 64) :
    ∃ scores, compute G g interleaving shuffle numSrc = some scores ∧
      ∀ v < G.size g, scores v = Betweenness.betweenness (G.forEachEdge g)
        (Finset.range (G.size g)) (selectSources G g shuffle numSrc) v := by
  have hsources (src : ℕ) (hsrc : src ∈ selectSources G g shuffle numSrc) :
      src < G.size g ∧ ∀ v, pathCount (G.forEachEdge g) src v < 2 ^ 64 := by
    have hlt := mem_selectSources hshuffle hsrc
    exact ⟨hlt, fun v => Nat.lt_of_le_pred (Nat.two_pow_pos 64) (hclosed.pathCount_le hlt
      (fun v hv => Nat.le_pred_of_lt (hfits src hsrc v hv)) v)⟩
  obtain ⟨scores, hrun, hscores⟩ := foldlM_addSource hclosed hsize interleaving hsources fun _ => 0
  exact ⟨scores, hrun, fun v _ => by rw [hscores v, zero_add]⟩

/-- One thread, and the vertices in their order. -/
def sequential : Interleaving := ⟨fun _ _ => [], fun _ _ worklist => worklist, fun _ _ _ => .rfl⟩

/-- Three vertices in a row with edges both ways. -/
def rowGraph : AdjGraph := ⟨[[1], [0, 2], [1]]⟩

theorem rowGraph_within : WithinGraph adjGraph rowGraph := by
  unfold WithinGraph Closed
  decide

theorem rowGraph_degree (v : ℕ) : (adjGraph.forEachEdge rowGraph v).length ≤ 2 := by
  show ([[1], [0, 2], [1]].getD v []).length ≤ 2
  match v with
  | 0 => decide
  | 1 => decide
  | 2 => decide
  | _ + 3 => exact Nat.zero_le 2

theorem compute_row : ∃ scores, compute adjGraph rowGraph sequential (fun l => l) 0 = some scores ∧
    ∀ v < 3, scores v = Betweenness.betweenness (adjGraph.forEachEdge rowGraph) (Finset.range 3)
      [0, 1, 2] v :=
  compute_result adjGraph rowGraph rowGraph_within (by decide) sequential (fun l => l)
    (fun _ => .rfl) 0 fun src hsrc v _ =>
      lt_of_le_of_lt (pathCount_le_pow rowGraph_within
        (Finset.mem_range.mpr (mem_selectSources (fun _ => .rfl) hsrc)) (Nat.succ_pos 1)
        rowGraph_degree v) (by decide)

example : (compute adjGraph rowGraph sequential (fun l => l) 0).map (fun scores =>
    [scores 0, scores 1, scores 2]) = some [0, 2, 0] := by decide +kernel

/-- The graphs that batches build have no edges to anything else. -/
theorem withinGraph_adjGraph (cs : List Call) :
    WithinGraph adjGraph (adjGraph.calls .new cs) := by
  have hok := adjGraph_calls_ok cs
  intro v _ d hd
  rw [Finset.mem_range]
  show d < (adjGraph.calls .new cs).edges.length
  rw [hok.count]
  exact (lt_vertexCount ((hok.out v).mem_iff.mp hd)).2

end Scea.BetweennessCentrality
