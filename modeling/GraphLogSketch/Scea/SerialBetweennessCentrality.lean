import GraphLogSketch.Library.Predecessors
import GraphLogSketch.Scea.BetweennessCentrality

/-! The serial version: one breadth-first search with a queue for each source, which lists the
predecessors of each vertex; dependencies are then pushed to these, the vertices of each level being
found by a scan. Distances and counts are `int`s here, and a sum that is too large for one has no value. -/
namespace Scea.SerialBetweennessCentrality
open LevelSearch ShortestPaths BetweennessCentrality

/-- `numeric_limits<int>::max()` -/
def intMax : ℕ := 2 ^ 31 - 1

/-- The sum of two `int`s, none of them negative; it is undefined if it is no `int`. -/
def intAdd (a b : ℕ) : Option ℕ := if a + b ≤ intMax then some (a + b) else none

/-- What `bfsShortestPaths` works on. -/
structure Bfs where
  q : List ℕ
  distance : ℕ → ℕ
  shortestPathCount : ℕ → ℕ
  predecessors : ℕ → List ℕ
  maxLevel : ℕ

def discover (u v : ℕ) (b : Bfs) : Option Bfs :=
  if b.distance v = intMax then do
    let next ← intAdd (b.distance u) 1
    return { b with q := b.q ++ [v], distance := Function.update b.distance v next }
  else some b

def count (u v : ℕ) (b : Bfs) : Option Bfs := do
  let next ← intAdd (b.distance u) 1
  if b.distance v = next then
    let sum ← intAdd (b.shortestPathCount v) (b.shortestPathCount u)
    return { b with
      shortestPathCount := Function.update b.shortestPathCount v sum
      predecessors := Function.update b.predecessors v (b.predecessors v ++ [u]) }
  else return b

/-- What is done for an edge from `u` to `v`. -/
def visitEdge (u : ℕ) (b : Bfs) (v : ℕ) : Option Bfs := do
  let b ← discover u v b
  let b ← count u v b
  return if b.maxLevel < b.distance v then { b with maxLevel := b.distance v } else b

variable {σ : Type} (G : MutableGraph σ) (g : σ)

/-- The loop over the queue, if it ends after at most `fuel` of its vertices, and without an `int`
overflow. -/
def search : ℕ → Bfs → Option Bfs
  | 0, b => if b.q = [] then some b else none
  | fuel + 1, b =>
    match b.q with
    | [] => some b
    | u :: q => do
      let b ← (G.forEachEdge g u).foldlM (visitEdge u) { b with q := q }
      search fuel b

/-- The search when its loop begins. -/
def startBfs (s : ℕ) (predecessors : ℕ → List ℕ) (shortestPathCount distance : ℕ → ℕ) : Bfs :=
  ⟨[s], Function.update distance s 0, Function.update shortestPathCount s 1, predecessors, 0⟩

/-- The source enters the queue, and then at most one vertex for each edge: the distance of a vertex
that has been queued twice cannot be increased, so an edge from it is an overflow. -/
def bfsShortestPaths (s : ℕ) (predecessors : ℕ → List ℕ) (shortestPathCount distance : ℕ → ℕ) :
    Option Bfs :=
  search G g (1 + ∑ v ∈ Finset.range (G.size g), (G.forEachEdge g v).length)
    (startBfs s predecessors shortestPathCount distance)

/-- The loop over the predecessors of `i`. -/
def push (b : Bfs) (i : ℕ) (dependency : ℕ → ℚ) : ℕ → ℚ :=
  (b.predecessors i).foldl (fun (dependency : ℕ → ℚ) pred =>
    let ratio : ℚ := b.shortestPathCount pred / b.shortestPathCount i
    Function.update dependency pred (dependency pred + (1 + dependency i) * ratio)) dependency

/-- The body of the loop over all vertices. -/
def scan (b : Bfs) (s maxLevel : ℕ) (r : Scores) (i : ℕ) : Scores :=
  if b.distance i ≠ maxLevel then r
  else
    let dependency := push b i r.dependency
    ⟨dependency, if i ≠ s then
      Function.update r.centralityScores i (r.centralityScores i + dependency i)
      else r.centralityScores⟩

/-- The loop down from level `n - 1` to level 0. -/
def backward (b : Bfs) (s : ℕ) : ℕ → Scores → Scores
  | 0, r => r
  | maxLevel + 1, r =>
    backward b s maxLevel ((List.range (G.size g)).foldl (scan b s maxLevel) r)

def addSource (centralityScores : ℕ → ℚ) (s : ℕ) : Option (ℕ → ℚ) := do
  let b ← bfsShortestPaths G g s (fun _ => []) (fun _ => 0) (fun _ => intMax)
  return (backward G g b s (b.maxLevel + 1) ⟨fun _ => 0, centralityScores⟩).centralityScores

/-- There is no result if some `int` overflows. -/
def compute : Option (ℕ → ℚ) := (List.range (G.size g)).foldlM (addSource G g) fun _ => 0

section Edges
variable {out : ℕ → List ℕ} {src u v k : ℕ} {b : Bfs} {todo claimed : List ℕ}
  {pending : Multiset (ℕ × ℕ)}

theorem intAdd_eq {x y : ℕ} (h : x + y ≤ intMax) : intAdd x y = some (x + y) := if_pos h

/-- The edge notes its source with a vertex of the next level. -/
theorem count_eq (hu : b.distance u = k) (hv : b.distance v = k + 1) (hk : k + 1 ≤ intMax)
    (hfits : b.shortestPathCount v + b.shortestPathCount u ≤ intMax) :
    count u v b = some { b with
      shortestPathCount := Function.update b.shortestPathCount v
        (b.shortestPathCount v + b.shortestPathCount u)
      predecessors := Function.update b.predecessors v (b.predecessors v ++ [u]) } := by
  simp [count, hu, hv, intAdd_eq hk, intAdd_eq hfits]

theorem visitEdge_unseen (hu : b.distance u = k) (hv : b.distance v = intMax)
    (hk : k + 1 ≤ intMax) (hfits : b.shortestPathCount v + b.shortestPathCount u ≤ intMax) :
    visitEdge u b v = some ⟨b.q ++ [v], Function.update b.distance v (k + 1),
      Function.update b.shortestPathCount v (b.shortestPathCount v + b.shortestPathCount u),
      Function.update b.predecessors v (b.predecessors v ++ [u]), max b.maxLevel (k + 1)⟩ := by
  have hne : u ≠ v := by
    rintro rfl
    omega
  have hdiscover : discover u v b = some { b with
      q := b.q ++ [v], distance := Function.update b.distance v (k + 1) } := by
    simp [discover, hu, hv, intAdd_eq hk]
  have hcount := count_eq (u := u) (v := v) (k := k) (b := { b with
      q := b.q ++ [v], distance := Function.update b.distance v (k + 1) })
    ((Function.update_of_ne hne _ _).trans hu) (Function.update_self ..) hk hfits
  simp only [visitEdge, hdiscover, hcount, Option.bind_eq_bind, Option.bind_some,
    Function.update_self]
  split_ifs with hlevel
  · rw [max_eq_right hlevel.le]
    rfl
  · rw [max_eq_left (not_lt.mp hlevel)]
    rfl

theorem visitEdge_next (hu : b.distance u = k) (hv : b.distance v = k + 1)
    (hk : k + 1 < intMax) (hfits : b.shortestPathCount v + b.shortestPathCount u ≤ intMax) :
    visitEdge u b v = some ⟨b.q, b.distance,
      Function.update b.shortestPathCount v (b.shortestPathCount v + b.shortestPathCount u),
      Function.update b.predecessors v (b.predecessors v ++ [u]), max b.maxLevel (k + 1)⟩ := by
  have hdiscover : discover u v b = some b := by
    rw [discover, if_neg]
    omega
  simp only [visitEdge, hdiscover, count_eq hu hv hk.le hfits, Option.bind_eq_bind,
    Option.bind_some, hv]
  split_ifs with hlevel
  · rw [max_eq_right hlevel.le]
    rfl
  · rw [max_eq_left (not_lt.mp hlevel)]
    rfl

/-- An edge to a vertex that is no further away than its source changes nothing. -/
theorem visitEdge_known (hu : b.distance u = k) (hv : b.distance v ≤ k) (hk : k < intMax)
    (hlevel : k ≤ b.maxLevel) : visitEdge u b v = some b := by
  have hdiscover : discover u v b = some b := by
    rw [discover, if_neg]
    omega
  have hcount : count u v b = some b := by
    have hnext : k + 1 ≤ intMax := hk
    have hne : b.distance v ≠ k + 1 := by omega
    simp [count, hu, hne, intAdd_eq hnext]
  have hdepth : ¬ b.maxLevel < b.distance v := by omega
  simp [visitEdge, hdiscover, hcount, hdepth]

theorem foldlM_known {dests : List ℕ} (hu : b.distance u = k)
    (hdests : ∀ v ∈ dests, b.distance v ≤ k) (hk : k < intMax) (hlevel : k ≤ b.maxLevel) :
    dests.foldlM (visitEdge u) b = some b := by
  induction dests with
  | nil => rfl
  | cons v dests ih =>
    rw [List.foldlM_cons, visitEdge_known hu (hdests v List.mem_cons_self) hk hlevel]
    exact ih fun v hv => hdests v (List.mem_cons_of_mem _ hv)

/-- What holds while the edges from level `k` are visited: its remaining vertices and those claimed
for the next level are in the queue. -/
structure LevelInv (out : ℕ → List ℕ) (src k : ℕ) (todo claimed : List ℕ)
    (pending : Multiset (ℕ × ℕ)) (b : Bfs) : Prop where
  q : b.q = todo ++ claimed
  inv : Inv out src intMax k
    ⟨b.distance, b.shortestPathCount, Multiset.ofList claimed, pending⟩
  traced : Traced out src k b.predecessors pending
  maxLevel : b.maxLevel = if claimed = [] then k else k + 1

/-- A count stays below the one that it ends with. -/
theorem LevelInv.fits (h : LevelInv out src k todo claimed ((u, v) ::ₘ pending) b)
    (hfits : ∀ v, pathCount out src v ≤ intMax) (hv : Beyond out src k v) :
    b.shortestPathCount v + b.shortestPathCount u ≤ intMax := by
  obtain ⟨hu, hmem⟩ := h.inv.pending (u, v) (Multiset.mem_cons_self _ _)
  have hcount := h.inv.counting hv
  have hsource := (h.inv.near hu le_rfl).2
  have hle := hfits v
  simp only [coming_cons, if_true, Nat.cast_id] at hcount hsource
  rw [(edge_beyond (v := v) hu hmem hv).pathCount] at hle
  omega

/-- Every edge gets the search one step further. -/
theorem LevelInv.visit (h : LevelInv out src k todo claimed ((u, v) ::ₘ pending) b)
    (hk : k + 1 < intMax) (hfits : ∀ v, pathCount out src v ≤ intMax) :
    ∃ claimed' b', visitEdge u b v = some b' ∧ LevelInv out src k todo claimed' pending b' := by
  have hhead := Multiset.mem_cons_self (u, v) pending
  obtain ⟨hu, -⟩ := h.inv.pending (u, v) hhead
  obtain ⟨hdist, hsource⟩ := h.inv.near hu le_rfl
  have hlevel := h.maxLevel
  simp only [Nat.cast_id] at hdist hsource
  rcases near_or_beyond k v with ⟨m, hm, hv⟩ | hv
  · have hd : b.distance v = m := (h.inv.near hv hm).1
    have hknown : ¬ Beyond out src k v := fun hb => hb m hm hv
    refine ⟨claimed, b, visitEdge_known hdist (by omega) (by omega) ?_, h.q,
      h.inv.skip (show b.distance v ≠ intMax by omega) (show b.distance v ≠ k + 1 by omega),
      h.traced.skip hknown, hlevel⟩
    split_ifs at hlevel <;> omega
  · have hcount := h.fits hfits hv
    rcases h.inv.beyond hv with hd | ⟨hd, -⟩
    · have hclaim := h.inv.claim hk hhead hd
      have hsettle := hclaim.settle hk (Function.update_self ..)
      refine ⟨claimed ++ [v], _, visitEdge_unseen hdist hd hk.le hcount, ?_, ?_, h.traced.take hv, ?_⟩
      · show b.q ++ [v] = todo ++ (claimed ++ [v])
        rw [h.q, List.append_assoc]
      · have hperm : Multiset.ofList (claimed ++ [v]) = v ::ₘ Multiset.ofList claimed := by
          exact Multiset.coe_eq_coe.mpr (List.perm_append_singleton v claimed)
        rw [hperm, hsource]
        exact hsettle
      · show max b.maxLevel (k + 1) = _
        rw [if_neg (by simp), max_eq_right]
        split_ifs at hlevel <;> omega
    · have hsettle := h.inv.settle hk hd
      have hclaimed : claimed ≠ [] := by
        rintro rfl
        exact absurd (h.inv.claimed_iff.mpr hd) (Multiset.notMem_zero v)
      refine ⟨claimed, _, visitEdge_next hdist hd hk hcount, h.q, ?_, h.traced.take hv, ?_⟩
      · rw [hsource]
        exact hsettle
      · show max b.maxLevel (k + 1) = _
        rw [if_neg hclaimed, max_eq_right]
        split_ifs at hlevel <;> omega

theorem LevelInv.visitAll {dests : List ℕ}
    (h : LevelInv out src k todo claimed
      (Multiset.ofList (dests.map fun v => (u, v)) + pending) b)
    (hk : k + 1 < intMax) (hfits : ∀ v, pathCount out src v ≤ intMax) :
    ∃ claimed' b', dests.foldlM (visitEdge u) b = some b' ∧
      LevelInv out src k todo claimed' pending b' := by
  induction dests generalizing claimed b with
  | nil => exact ⟨claimed, b, rfl, by simpa using h⟩
  | cons v dests ih =>
    have hcons : Multiset.ofList ((v :: dests).map fun v => (u, v)) + pending =
        (u, v) ::ₘ (Multiset.ofList (dests.map fun v => (u, v)) + pending) := by
      rw [List.map_cons, ← Multiset.cons_coe, Multiset.cons_add]
    rw [hcons] at h
    obtain ⟨claimed₁, b₁, hvisit, h₁⟩ := h.visit hk hfits
    obtain ⟨claimed', b', hrest, h'⟩ := ih h₁
    refine ⟨claimed', b', ?_, h'⟩
    rw [List.foldlM_cons, hvisit]
    exact hrest

end Edges

section Search
variable {G g} {src k fuel : ℕ} {b : Bfs} {todo claimed : List ℕ}

theorem search_nil (hq : b.q = []) (fuel : ℕ) : search G g fuel b = some b := by
  cases fuel with
  | zero => exact if_pos hq
  | succ fuel => simp only [search, hq]

theorem search_cons {u : ℕ} {q : List ℕ} {b' : Bfs} (hq : b.q = u :: q)
    (hvisit : (G.forEachEdge g u).foldlM (visitEdge u) { b with q := q } = some b') :
    search G g (fuel + 1) b = search G g fuel b' := by
  simp only [search, hq, hvisit, Option.bind_eq_bind, Option.bind_some]

/-- The queue is emptied of a level, and holds the next one. -/
theorem LevelInv.search (h : LevelInv (G.forEachEdge g) src k todo claimed
      (edgesFrom (G.forEachEdge g) (Multiset.ofList todo)) b)
    (hk : k + 1 < intMax) (hfits : ∀ v, pathCount (G.forEachEdge g) src v ≤ intMax) (fuel : ℕ) :
    ∃ claimed' b', search G g (todo.length + fuel) b = search G g fuel b' ∧
      LevelInv (G.forEachEdge g) src k [] claimed' 0 b' := by
  induction todo generalizing claimed b with
  | nil => exact ⟨claimed, b, by rw [List.length_nil, Nat.zero_add], h⟩
  | cons u todo ih =>
    have hpop : LevelInv (G.forEachEdge g) src k todo claimed
        (Multiset.ofList ((G.forEachEdge g u).map fun v => (u, v)) +
          edgesFrom (G.forEachEdge g) (Multiset.ofList todo)) { b with q := todo ++ claimed } := by
      rw [← Multiset.cons_coe, edgesFrom_cons] at h
      exact ⟨rfl, h.inv, h.traced, h.maxLevel⟩
    obtain ⟨claimed₁, b₁, hvisit, h₁⟩ := hpop.visitAll hk hfits
    obtain ⟨claimed', b', hrun, h'⟩ := ih h₁
    refine ⟨claimed', b', ?_, h'⟩
    rw [List.length_cons, Nat.succ_add, search_cons h.q hvisit, hrun]

/-- The edges from the last level lead nowhere new. -/
theorem search_last (hk : k < intMax) (hlevel : k ≤ b.maxLevel)
    (htodo : ∀ u ∈ todo, b.distance u = k ∧ ∀ v ∈ G.forEachEdge g u, b.distance v ≤ k)
    (hq : b.q = todo) (fuel : ℕ) :
    search G g (todo.length + fuel) b = some { b with q := [] } := by
  induction todo generalizing b with
  | nil =>
    rw [search_nil hq, ← hq]
  | cons u todo ih =>
    obtain ⟨hu, hdests⟩ := htodo u List.mem_cons_self
    have hvisit := foldlM_known (b := { b with q := todo }) hu hdests hk hlevel
    rw [List.length_cons, Nat.succ_add, search_cons hq hvisit]
    exact ih hlevel (fun u hu => htodo u (List.mem_cons_of_mem _ hu)) rfl

/-- Everything up to level `k` is found, and the queue holds that level. -/
structure AtLevel (out : ℕ → List ℕ) (src k : ℕ) (b : Bfs) : Prop where
  complete : Complete out src intMax k b.distance b.shortestPathCount
  level : IsLevel out src k (Multiset.ofList b.q)
  traced : Traced out src k b.predecessors (edgesFrom out (Multiset.ofList b.q))
  maxLevel : b.maxLevel = k

theorem LevelInv.next {out : ℕ → List ℕ} (h : LevelInv out src k [] claimed 0 b)
    (hk : k + 1 < intMax) {v : ℕ} (hv : Distance out src v (k + 1)) : AtLevel out src (k + 1) b := by
  obtain ⟨hcomplete, hlevel⟩ := h.inv.finish hk
  have hclaimed : claimed ≠ [] := by
    rintro rfl
    exact absurd (hlevel.mem_iff.mpr hv) (Multiset.notMem_zero v)
  have hq : b.q = claimed := h.q
  rw [← hq] at hlevel
  exact ⟨hcomplete, hlevel, h.traced.next hlevel, h.maxLevel.trans (if_neg hclaimed)⟩

/-- A search that has seen everything. -/
structure Traversed (out : ℕ → List ℕ) (src : ℕ) (b : Bfs) : Prop where
  distance_iff : ∀ {v m}, m < intMax → (b.distance v = m ↔ Distance out src v m)
  count_eq : ∀ {v}, Reaches out src v → b.shortestPathCount v = pathCount out src v
  count_predecessors : ∀ u v, (b.predecessors v).count u = precedes out src u v
  le_maxLevel : ∀ {v m}, Distance out src v m → m ≤ b.maxLevel
  maxLevel_lt : b.maxLevel < intMax

theorem AtLevel.traversed {out : ℕ → List ℕ} (h : AtLevel out src k b) (hk : k < intMax)
    (hlast : ∀ v m, Distance out src v m → m ≤ k) : Traversed out src b where
  distance_iff := by
    intro v m hm
    refine ⟨fun hd => ?_, fun hv => (h.complete.near hv (hlast v m hv)).1⟩
    rcases near_or_beyond k v with ⟨j, hj, hv⟩ | hb
    · have heq := (h.complete.near hv hj).1
      exact (heq.symm.trans hd) ▸ hv
    · have hinf := (h.complete.beyond hb).1
      omega
  count_eq := by
    intro v hr
    obtain ⟨m, hv⟩ := hr.exists_distance
    rw [(h.complete.near hv (hlast v m hv)).2, hv.pathCount, Nat.cast_id]
  count_predecessors := h.traced.finish hlast
  le_maxLevel := by
    intro v m hv
    rw [h.maxLevel]
    exact hlast v m hv
  maxLevel_lt := h.maxLevel ▸ hk

theorem search_result (hclosed : WithinGraph G g) (hsrc : src < G.size g)
    (hfits : ∀ v, pathCount (G.forEachEdge g) src v ≤ intMax)
    (hdistance : ∀ v m, Distance (G.forEachEdge g) src v m → m < intMax)
    (h : AtLevel (G.forEachEdge g) src k b) (hk : k < intMax) (hne : b.q ≠ [])
    (hfuel : (ahead (G.forEachEdge g) src k (Finset.range (G.size g))).card ≤ fuel) :
    ∃ b', search G g fuel b = some b' ∧ Traversed (G.forEachEdge g) src b' := by
  induction fuel using Nat.strong_induction_on generalizing k b with
  | _ fuel ih =>
    have hcard := h.level.card_ahead hclosed (Finset.mem_range.mpr hsrc)
    rw [Multiset.coe_card] at hcard
    obtain ⟨rest, rfl⟩ : ∃ rest, fuel = b.q.length + rest := ⟨fuel - b.q.length, by omega⟩
    by_cases hnext : ∃ v, Distance (G.forEachEdge g) src v (k + 1)
    · obtain ⟨v, hv⟩ := hnext
      have hk' := hdistance v _ hv
      have hstart : LevelInv (G.forEachEdge g) src k b.q []
          (edgesFrom (G.forEachEdge g) (Multiset.ofList b.q)) b :=
        ⟨(List.append_nil _).symm,
          h.complete.start hclosed (Finset.mem_range.mpr hsrc) hk' h.level, h.traced,
          h.maxLevel.trans (if_pos rfl).symm⟩
      obtain ⟨claimed, b₁, hrun, h₁⟩ := hstart.search hk' hfits rest
      have hat := h₁.next hk' hv
      have hpos := List.length_pos_iff.mpr hne
      have hne₁ : b₁.q ≠ [] :=
        List.ne_nil_of_mem (Multiset.mem_coe.mp (hat.level.mem_iff.mpr hv))
      obtain ⟨b', hrest, hb'⟩ := ih rest (by omega) hat hk' hne₁ (by omega)
      exact ⟨b', hrun.trans hrest, hb'⟩
    · have hlast (v m : ℕ) (hv : Distance (G.forEachEdge g) src v m) : m ≤ k := by
        by_contra hm
        exact hnext (hv.exists_at (not_le.mp hm))
      have htodo (u : ℕ) (hu : u ∈ b.q) :
          b.distance u = k ∧ ∀ v ∈ G.forEachEdge g u, b.distance v ≤ k := by
        have hd := h.level.mem_iff.mp (Multiset.mem_coe.mpr hu)
        refine ⟨(h.complete.near hd le_rfl).1, fun v hv => ?_⟩
        obtain ⟨m, -, hm⟩ := hd.edge hv
        rw [(h.complete.near hm (hlast v m hm)).1]
        exact hlast v m hm
      have ht := h.traversed hk hlast
      exact ⟨_, search_last hk h.maxLevel.ge htodo rfl rest, ht.distance_iff, ht.count_eq,
        ht.count_predecessors, ht.le_maxLevel, ht.maxLevel_lt⟩

/-- Where all distances and counts are `int`s, the search sees everything. -/
theorem bfsShortestPaths_result (hclosed : WithinGraph G g) (hsrc : src < G.size g)
    (hfits : ∀ v, pathCount (G.forEachEdge g) src v ≤ intMax)
    (hdistance : ∀ v m, Distance (G.forEachEdge g) src v m → m < intMax) :
    ∃ b, bfsShortestPaths G g src (fun _ => []) (fun _ => 0) (fun _ => intMax) = some b ∧
      Traversed (G.forEachEdge g) src b := by
  have hstart : AtLevel (G.forEachEdge g) src 0 ⟨[src], Function.update (fun _ => intMax) src 0,
      Function.update (fun _ => 0) src 1, fun _ => [], 0⟩ :=
    ⟨complete_zero src, isLevel_zero src, traced_zero src, rfl⟩
  exact search_result hclosed hsrc hfits hdistance hstart (by decide) (List.cons_ne_nil _ _)
    (card_ahead_zero hclosed (Finset.mem_range.mpr hsrc))

end Search

/-- What vertex `d` gives to its predecessor `u`. -/
noncomputable def gift (G : MutableGraph σ) (g : σ) (src u d : ℕ) : ℚ :=
  precedes (G.forEachEdge g) src u d * ((1 + dependencyOf G g src d) *
    (pathCount (G.forEachEdge g) src u / pathCount (G.forEachEdge g) src d : ℚ))

theorem gift_eq_zero {G : MutableGraph σ} {g : σ} {src u d : ℕ}
    (h : precedes (G.forEachEdge g) src u d = 0) : gift G g src u d = 0 := by
  rw [gift, h, Nat.cast_zero, zero_mul]

/-- The vertices `done` have given to their predecessors, and what they depend on is in their scores. -/
structure Pushed (G : MutableGraph σ) (g : σ) (src : ℕ) (done : Finset ℕ) (old : ℕ → ℚ)
    (r : Scores) : Prop where
  dependency : ∀ u, r.dependency u = ∑ d ∈ done, gift G g src u d
  score : ∀ v, r.centralityScores v =
    old v + if v ∈ done ∧ v ≠ src then dependencyOf G g src v else 0

section Backward
variable {G g} {src i level : ℕ} {b : Bfs} {done : Finset ℕ} {old : ℕ → ℚ} {r : Scores}

theorem precedes_self {out : ℕ → List ℕ} (hi : Distance out src i level) :
    precedes out src i i = 0 := by
  by_contra hne
  have heq := (distance_of_precedes hne hi).unique hi
  omega

theorem foldl_push {preds : List ℕ} (hi : i ∉ preds) (w dependency : ℕ → ℚ) (u : ℕ) :
    preds.foldl (fun (dependency : ℕ → ℚ) pred =>
        Function.update dependency pred (dependency pred + (1 + dependency i) * w pred)) dependency u =
      dependency u + preds.count u * ((1 + dependency i) * w u) := by
  induction preds generalizing dependency with
  | nil => simp
  | cons pred preds ih =>
    have hne := List.ne_of_not_mem_cons hi
    rw [List.foldl_cons, ih (List.not_mem_of_not_mem_cons hi), Function.update_of_ne hne]
    by_cases hu : u = pred
    · rw [hu, Function.update_self, List.count_cons_self, Nat.cast_succ]
      ring
    · rw [Function.update_of_ne hu, List.count_cons_of_ne (Ne.symm hu)]

/-- The loop over the predecessors gives to each of them by the number of its edges. -/
theorem push_eq (h : Traversed (G.forEachEdge g) src b)
    (hi : Distance (G.forEachEdge g) src i level) (dependency : ℕ → ℚ) (u : ℕ) :
    push b i dependency u = dependency u + precedes (G.forEachEdge g) src u i *
      ((1 + dependency i) *
        (pathCount (G.forEachEdge g) src u / pathCount (G.forEachEdge g) src i : ℚ)) := by
  have hnot : i ∉ b.predecessors i := by
    rw [← List.count_eq_zero, h.count_predecessors]
    exact precedes_self hi
  have hloop := foldl_push hnot
    (fun pred => (b.shortestPathCount pred / b.shortestPathCount i : ℚ)) dependency u
  show (b.predecessors i).foldl _ dependency u = _
  rw [hloop, h.count_predecessors, h.count_eq hi.reaches]
  by_cases hu : Reaches (G.forEachEdge g) src u
  · rw [h.count_eq hu]
  · have hzero : precedes (G.forEachEdge g) src u i = 0 := by
      rw [precedes, if_neg]
      rintro ⟨m, hm, -⟩
      exact hu hm.reaches
    rw [hzero, Nat.cast_zero, zero_mul, zero_mul]

variable (hclosed : WithinGraph G g) (hsrc : src < G.size g)
  (h : Traversed (G.forEachEdge g) src b)
include hclosed hsrc

/-- When everything one level further is done, a vertex has been given all that it depends on. -/
theorem Pushed.dependency_eq (hs : Pushed G g src done old r)
    (hi : Distance (G.forEachEdge g) src i level) (hne : i ≠ src)
    (hdone : ∀ d ∈ done, d < G.size g)
    (hsucc : ∀ d, Distance (G.forEachEdge g) src d (level + 1) → d ∈ done) :
    r.dependency i = dependencyOf G g src i := by
  have hmem := hclosed.mem_of_walk (Finset.mem_range.mpr hsrc) hi.1
  have hpos : 0 < level := by
    by_contra hzero
    obtain rfl : level = 0 := by omega
    exact hne (distance_zero_iff.mp hi).symm
  rw [hs.dependency, dependencyOf,
    Betweenness.dependency_eq_sum_precedes hclosed hmem hi hpos]
  apply Finset.sum_subset
  · exact fun d hd => Finset.mem_range.mpr (hdone d hd)
  · intro d _ hd
    apply gift_eq_zero
    by_contra hprecedes
    exact hd (hsucc d (distance_of_precedes hprecedes hi))

include h

/-- A vertex of the level is done. -/
theorem Pushed.scan (hs : Pushed G g src done old r)
    (hi : Distance (G.forEachEdge g) src i level) (hnot : i ∉ done)
    (hdone : ∀ d ∈ done, d < G.size g)
    (hsucc : ∀ d, Distance (G.forEachEdge g) src d (level + 1) → d ∈ done)
    (hlevel : b.distance i = level) :
    Pushed G g src (insert i done) old (scan b src level r i) := by
  have hpush (u : ℕ) : push b i r.dependency u = r.dependency u + gift G g src u i := by
    rw [push_eq h hi, gift]
    by_cases hne : i = src
    · rw [hne, precedes_source, Nat.cast_zero, zero_mul, zero_mul]
    · rw [hs.dependency_eq hclosed hsrc hi hne hdone hsucc]
  rw [SerialBetweennessCentrality.scan, if_neg (not_not.mpr hlevel)]
  refine ⟨fun u => ?_, fun v => ?_⟩
  · show push b i r.dependency u = _
    rw [hpush, hs.dependency, Finset.sum_insert hnot, add_comm]
  · show (if i ≠ src then Function.update r.centralityScores i
      (r.centralityScores i + push b i r.dependency i) else r.centralityScores) v = _
    have hself : gift G g src i i = 0 := gift_eq_zero (precedes_self hi)
    have hold := hs.score v
    by_cases hv : v = i
    · subst hv
      rw [if_neg fun hc => hnot hc.1, add_zero] at hold
      by_cases hne : v = src
      · rw [if_neg (not_not.mpr hne), if_neg fun hc => hc.2 hne, hold, add_zero]
      · rw [if_pos hne, if_pos ⟨Finset.mem_insert_self v done, hne⟩, Function.update_self, hold,
          hpush, hself, add_zero, hs.dependency_eq hclosed hsrc hi hne hdone hsucc]
    · have hiff : v ∈ insert i done ↔ v ∈ done := by
        rw [Finset.mem_insert, or_iff_right hv]
      simp only [hiff]
      rw [← hold]
      split_ifs
      · exact Function.update_of_ne hv ..
      · rfl

/-- The scan of a level does its vertices. -/
theorem Pushed.foldl_scan {vertices : List ℕ} (hnodup : vertices.Nodup)
    (hs : Pushed G g src done old r)
    (hlevel : level < intMax) (hdone : ∀ d ∈ done, d < G.size g)
    (hnot : ∀ i ∈ vertices, Distance (G.forEachEdge g) src i level → i ∉ done)
    (hsucc : ∀ d, Distance (G.forEachEdge g) src d (level + 1) → d ∈ done) :
    ∃ done', Pushed G g src done' old (vertices.foldl (SerialBetweennessCentrality.scan b src level) r) ∧
      ∀ v, v ∈ done' ↔ v ∈ done ∨ v ∈ vertices ∧ Distance (G.forEachEdge g) src v level := by
  induction vertices generalizing done r with
  | nil => exact ⟨done, hs, fun v => by simp⟩
  | cons i vertices ih =>
    obtain ⟨hfresh, hnodup⟩ := List.nodup_cons.mp hnodup
    have hdist := h.distance_iff (v := i) hlevel
    by_cases hi : Distance (G.forEachEdge g) src i level
    · have hscan := hs.scan hclosed hsrc h hi (hnot i List.mem_cons_self hi) hdone hsucc
        (hdist.mpr hi)
      have hmem := hclosed.lt_size hsrc hi.reaches
      obtain ⟨done', hs', hiff⟩ := ih hnodup hscan
        (fun d hd => (Finset.mem_insert.mp hd).elim (fun heq => heq ▸ hmem) (hdone d))
        (fun j hj hd hin => (Finset.mem_insert.mp hin).elim
          (fun heq => hfresh (heq ▸ hj)) (hnot j (List.mem_cons_of_mem i hj) hd))
        fun d hd => Finset.mem_insert_of_mem (hsucc d hd)
      refine ⟨done', hs', fun v => ?_⟩
      rw [hiff v, Finset.mem_insert, List.mem_cons]
      constructor
      · rintro ((rfl | hv) | ⟨hv, hd⟩)
        · exact Or.inr ⟨Or.inl rfl, hi⟩
        · exact Or.inl hv
        · exact Or.inr ⟨Or.inr hv, hd⟩
      · rintro (hv | ⟨rfl | hv, hd⟩)
        · exact Or.inl (Or.inr hv)
        · exact Or.inl (Or.inl rfl)
        · exact Or.inr ⟨hv, hd⟩
    · have hstay : SerialBetweennessCentrality.scan b src level r i = r :=
        if_pos fun heq => hi (hdist.mp heq)
      obtain ⟨done', hs', hiff⟩ := ih hnodup hs hdone
        (fun j hj => hnot j (List.mem_cons_of_mem i hj)) hsucc
      refine ⟨done', ?_, fun v => ?_⟩
      · rw [List.foldl_cons, hstay]
        exact hs'
      · rw [hiff v, List.mem_cons]
        constructor
        · rintro (hv | ⟨hv, hd⟩)
          · exact Or.inl hv
          · exact Or.inr ⟨Or.inr hv, hd⟩
        · rintro (hv | ⟨rfl | hv, hd⟩)
          · exact Or.inl hv
          · exact absurd hd hi
          · exact Or.inr ⟨hv, hd⟩

/-- After the last level everything that is reached is done. -/
theorem Pushed.backward (hs : Pushed G g src done old r) (hlevel : level ≤ intMax)
    (hdone : ∀ v, v ∈ done ↔ ∃ m, level ≤ m ∧ Distance (G.forEachEdge g) src v m) :
    ∃ done', Pushed G g src done' old (backward G g b src level r) ∧
      ∀ v, v ∈ done' ↔ Reaches (G.forEachEdge g) src v := by
  induction level generalizing done r with
  | zero =>
    refine ⟨done, hs, fun v => (hdone v).trans ⟨fun ⟨m, _, hd⟩ => hd.reaches, fun hr => ?_⟩⟩
    obtain ⟨m, hd⟩ := hr.exists_distance
    exact ⟨m, Nat.zero_le m, hd⟩
  | succ level ih =>
    have hnot (v : ℕ) (hd : Distance (G.forEachEdge g) src v level) : v ∉ done := by
      intro hv
      obtain ⟨m, hm, hd'⟩ := (hdone v).mp hv
      have heq := hd'.unique hd
      omega
    obtain ⟨done₁, hs₁, hiff⟩ := hs.foldl_scan hclosed hsrc h List.nodup_range hlevel
      (fun d hd => by
        obtain ⟨m, -, hm⟩ := (hdone d).mp hd
        exact hclosed.lt_size hsrc hm.reaches)
      (fun i _ => hnot i) fun d hd => (hdone d).mpr ⟨_, le_rfl, hd⟩
    apply ih hs₁ (Nat.le_of_succ_le hlevel)
    intro v
    rw [hiff v, hdone v, List.mem_range]
    constructor
    · rintro (⟨m, hm, hd⟩ | ⟨-, hd⟩)
      · exact ⟨m, Nat.le_of_succ_le hm, hd⟩
      · exact ⟨level, le_rfl, hd⟩
    · rintro ⟨m, hm, hd⟩
      rcases Nat.lt_or_eq_of_le hm with hlt | rfl
      · exact Or.inl ⟨m, hlt, hd⟩
      · exact Or.inr ⟨hclosed.lt_size hsrc hd.reaches, hd⟩

end Backward

section Result
variable {G g} {src : ℕ} (hclosed : WithinGraph G g)
include hclosed

/-- What a source adds to the score of each vertex. -/
theorem addSource_result (hsrc : src < G.size g)
    (hfits : ∀ v, pathCount (G.forEachEdge g) src v ≤ intMax)
    (hdistance : ∀ v m, Distance (G.forEachEdge g) src v m → m < intMax) (old : ℕ → ℚ) :
    ∃ scores, addSource G g old src = some scores ∧
      ∀ v, scores v = old v + if src = v then 0 else dependencyOf G g src v := by
  obtain ⟨b, hrun, h⟩ := bfsShortestPaths_result hclosed hsrc hfits hdistance
  have hstart : Pushed G g src ∅ old ⟨fun _ => 0, old⟩ := ⟨fun u => by simp, fun v => by simp⟩
  have hnone (v : ℕ) : v ∈ (∅ : Finset ℕ) ↔
      ∃ m, b.maxLevel + 1 ≤ m ∧ Distance (G.forEachEdge g) src v m := by
    refine ⟨fun hv => absurd hv (Finset.notMem_empty v), fun ⟨m, hm, hd⟩ => ?_⟩
    have hle := h.le_maxLevel hd
    omega
  obtain ⟨done, hs, hiff⟩ := hstart.backward hclosed hsrc h h.maxLevel_lt hnone
  refine ⟨_, by rw [addSource, hrun]; rfl, fun v => ?_⟩
  rw [hs.score]
  congr 1
  by_cases heq : src = v
  · rw [if_pos heq, if_neg fun hc => hc.2 heq.symm]
  · rw [if_neg heq]
    split_ifs with hc
    · rfl
    · have hnot : ¬ Reaches (G.forEachEdge g) src v :=
        fun hr => hc ⟨(hiff v).mpr hr, Ne.symm heq⟩
      rw [dependencyOf, Betweenness.dependency_of_not_reaches hnot]

variable (hsize : 8 * G.size g ≤ 2 ^ 64)
  (hfits : ∀ src < G.size g, ∀ v < G.size g, pathCount (G.forEachEdge g) src v ≤ intMax)
include hsize hfits

/-- The scores of the parallel version. -/
theorem compute_all (interleaving : Interleaving) (shuffle : List ℕ → List ℕ) :
    ∃ scores, BetweennessCentrality.compute G g interleaving shuffle 0 = some scores ∧
      ∀ v, scores v = 0 + Betweenness.betweenness (G.forEachEdge g) (Finset.range (G.size g))
        (List.range (G.size g)) v := by
  have hall : selectSources G g shuffle 0 = List.range (G.size g) := by
    rw [selectSources, if_neg (lt_irrefl 0)]
  rw [BetweennessCentrality.compute, hall]
  apply foldlM_addSource hclosed hsize interleaving
  intro src hsrc
  have hlt := List.mem_range.mp hsrc
  exact ⟨hlt, fun v => (hclosed.pathCount_le hlt (hfits src hlt) v).trans_lt (by decide)⟩

end Result

/-- Where all distances and counts are `int`s, both versions give every vertex the same score. -/
theorem compute_agrees (G : MutableGraph σ) (g : σ) (hclosed : WithinGraph G g)
    (hsize : 8 * G.size g ≤ 2 ^ 64) (interleaving : Interleaving) (shuffle : List ℕ → List ℕ)
    (hfits : ∀ src < G.size g, ∀ v < G.size g, pathCount (G.forEachEdge g) src v ≤ intMax)
    (hdistance : ∀ src < G.size g, ∀ v < G.size g, ∀ m,
      Distance (G.forEachEdge g) src v m → m < intMax) :
    ∃ scores serialScores,
      BetweennessCentrality.compute G g interleaving shuffle 0 = some scores ∧
      compute G g = some serialScores ∧ ∀ v < G.size g, scores v = serialScores v := by
  have hnear (src : ℕ) (hsrc : src < G.size g) (v m : ℕ)
      (hd : Distance (G.forEachEdge g) src v m) : m < intMax :=
    hdistance src hsrc v (hclosed.lt_size hsrc hd.reaches) m hd
  obtain ⟨scores, hrun, hscores⟩ := compute_all hclosed hsize hfits interleaving shuffle
  have hadd (src : ℕ) (hmem : src ∈ List.range (G.size g)) :=
    have hsrc := List.mem_range.mp hmem
    addSource_result hclosed hsrc (hclosed.pathCount_le hsrc (hfits src hsrc)) (hnear src hsrc)
  obtain ⟨serialScores, hserial, hserialScores⟩ := Betweenness.foldlM_dependency hadd fun _ => 0
  refine ⟨scores, serialScores, hrun, hserial, fun v _ => ?_⟩
  rw [hscores v, hserialScores v]

theorem compute_agrees_row : ∃ scores serialScores,
    BetweennessCentrality.compute adjGraph rowGraph sequential (fun l => l) 0 = some scores ∧
    compute adjGraph rowGraph = some serialScores ∧
    ∀ v < adjGraph.size rowGraph, scores v = serialScores v :=
  compute_agrees adjGraph rowGraph rowGraph_within (by decide) sequential (fun l => l)
    (fun src hsrc v _ => (pathCount_le_pow rowGraph_within (Finset.mem_range.mpr hsrc)
      (Nat.succ_pos 1) rowGraph_degree v).trans (by decide))
    fun src hsrc v _ m hd =>
      (hd.lt_card rowGraph_within (Finset.mem_range.mpr hsrc)).trans (by decide)

example : (compute adjGraph rowGraph).map (fun scores =>
    [scores 0, scores 1, scores 2]) = some [0, 2, 0] := by decide +kernel

/-- A directed path through `n` vertices. -/
def chain (n : ℕ) : AdjGraph := ⟨(List.range n).map fun i => if i + 1 < n then [i + 1] else []⟩

section Chain
variable {n k : ℕ} {b : Bfs}

theorem chain_size (n : ℕ) : adjGraph.size (chain n) = n := by
  show ((List.range n).map _).length = n
  rw [List.length_map, List.length_range]

theorem chain_out (n v : ℕ) :
    adjGraph.forEachEdge (chain n) v = if v + 1 < n then [v + 1] else [] := by
  show ((List.range n).map fun i => if i + 1 < n then [i + 1] else []).getD v [] = _
  rw [List.getD_eq_getElem?_getD, List.getElem?_map]
  by_cases hv : v < n
  · rw [List.getElem?_range hv]
    rfl
  · rw [List.getElem?_eq_none (by rw [List.length_range]; omega), if_neg (by omega)]
    rfl

theorem chain_within (n : ℕ) : WithinGraph adjGraph (chain n) := by
  intro v _ d hd
  rw [chain_out] at hd
  rw [chain_size, Finset.mem_range]
  split_ifs at hd with hv
  · rw [List.mem_singleton.mp hd]
    exact hv
  · exact absurd hd List.not_mem_nil

theorem chain_pathCount (n src v : ℕ) (hsrc : src < n) :
    pathCount (adjGraph.forEachEdge (chain n)) src v ≤ 1 := by
  have hdegree (v : ℕ) : (adjGraph.forEachEdge (chain n) v).length ≤ 1 := by
    rw [chain_out]
    split_ifs <;> simp
  have hpow := pathCount_le_pow (chain_within n)
    (Finset.mem_range.mpr ((chain_size n).symm ▸ hsrc)) Nat.one_pos hdegree v
  rwa [one_pow] at hpow

/-- The search of a path has come to vertex `k`. -/
structure ChainAt (k : ℕ) (b : Bfs) : Prop where
  q : b.q = [k]
  distance : b.distance k = k
  shortestPathCount : b.shortestPathCount k = 1
  far : ∀ i, k < i → b.distance i = intMax ∧ b.shortestPathCount i = 0

theorem ChainAt.next (h : ChainAt k b) (hk : k + 1 ≤ intMax) (hn : k + 1 < n) (fuel : ℕ) :
    ∃ b', search adjGraph (chain n) (fuel + 1) b = search adjGraph (chain n) fuel b' ∧
      ChainAt (k + 1) b' := by
  obtain ⟨hfar, hzero⟩ := h.far (k + 1) (Nat.lt_succ_self k)
  have hvisit := visitEdge_unseen (b := { b with q := [] }) h.distance hfar hk (by
    show b.shortestPathCount (k + 1) + b.shortestPathCount k ≤ intMax
    rw [hzero, h.shortestPathCount]
    decide)
  have hrow : (adjGraph.forEachEdge (chain n) k).foldlM (visitEdge k) { b with q := [] } =
      visitEdge k { b with q := [] } (k + 1) := by
    rw [chain_out, if_pos hn, List.foldlM_cons]
    exact bind_pure _
  refine ⟨_, search_cons h.q (hrow.trans hvisit), rfl, ?_, ?_, fun i hi => ?_⟩
  · show Function.update b.distance (k + 1) _ (k + 1) = _
    exact Function.update_self ..
  · show Function.update b.shortestPathCount (k + 1) _ (k + 1) = 1
    rw [Function.update_self, hzero, h.shortestPathCount]
  · have hne : i ≠ k + 1 := by omega
    show Function.update b.distance (k + 1) _ i = _ ∧ Function.update b.shortestPathCount (k + 1) _ i = _
    rw [Function.update_of_ne hne, Function.update_of_ne hne]
    exact h.far i (by omega)

theorem ChainAt.run (h : ChainAt 0 b) (hk : k ≤ intMax) (hn : k < n) (fuel : ℕ) :
    ∃ b', search adjGraph (chain n) (k + fuel) b = search adjGraph (chain n) fuel b' ∧
      ChainAt k b' := by
  induction k generalizing fuel with
  | zero => exact ⟨b, by rw [Nat.zero_add], h⟩
  | succ k ih =>
    obtain ⟨b₁, hrun, h₁⟩ := ih (Nat.le_of_succ_le hk) (Nat.lt_of_succ_lt hn) (fuel + 1)
    obtain ⟨b', hstep, h'⟩ := h₁.next hk hn fuel
    refine ⟨b', ?_, h'⟩
    rw [← hstep, ← hrun]
    congr 1
    omega

/-- The distance of the vertex after `intMax` edges cannot be increased. -/
theorem ChainAt.overflow (h : ChainAt intMax b) (hn : intMax + 1 < n) (fuel : ℕ) :
    search adjGraph (chain n) (fuel + 1) b = none := by
  have hfar := (h.far (intMax + 1) (Nat.lt_succ_self _)).1
  have hvisit : visitEdge intMax { b with q := [] } (intMax + 1) = none := by
    have hdiscover : discover intMax (intMax + 1) { b with q := [] } = none := by
      rw [discover, if_pos hfar, h.distance]
      rfl
    rw [visitEdge, hdiscover]
    rfl
  rw [search, h.q]
  simp only [chain_out, if_pos hn, List.foldlM_cons, hvisit, Option.bind_eq_bind, Option.bind_none]

/-- The search does not end on a path, however long it may go on. -/
theorem search_chain (hn : intMax + 1 < n) (fuel : ℕ) : search adjGraph (chain n) fuel
    (startBfs 0 (fun _ => []) (fun _ => 0) fun _ => intMax) = none := by
  have hstart : ChainAt 0 (startBfs 0 (fun _ => []) (fun _ => 0) fun _ => intMax) := by
    exact ⟨rfl, by simp [startBfs], by simp [startBfs], fun i hi => by simp [startBfs, hi.ne']⟩
  rcases le_or_gt fuel intMax with hfuel | hfuel
  · obtain ⟨b, hrun, hb⟩ := hstart.run hfuel (hfuel.trans_lt (Nat.lt_of_succ_lt hn)) 0
    rw [Nat.add_zero] at hrun
    rw [hrun, search, if_neg]
    rw [hb.q]
    exact List.cons_ne_nil _ _
  · obtain ⟨fuel, rfl⟩ := Nat.exists_eq_add_of_lt hfuel
    obtain ⟨b, hrun, hb⟩ := hstart.run le_rfl (Nat.lt_of_succ_lt hn) (fuel + 1)
    rw [Nat.add_assoc, hrun]
    exact hb.overflow hn fuel

theorem compute_chain (hn : intMax + 1 < n) : compute adjGraph (chain n) = none := by
  obtain ⟨m, rfl⟩ : ∃ m, n = m + 1 := ⟨n - 1, by omega⟩
  rw [compute, chain_size, List.range_succ_eq_map, List.foldlM_cons, addSource, bfsShortestPaths,
    search_chain hn]
  rfl

end Chain

/-- A directed path of `2 ^ 31` edges. -/
def longChain : AdjGraph := chain (2 ^ 31 + 1)

/-- Its counts are 0 and 1, and still the serial version overflows: its first search has no result,
however long it may go on. -/
theorem compute_longChain : WithinGraph adjGraph longChain ∧
    8 * adjGraph.size longChain ≤ 2 ^ 64 ∧
    (∀ src < adjGraph.size longChain, ∀ v < adjGraph.size longChain,
      pathCount (adjGraph.forEachEdge longChain) src v ≤ intMax) ∧
    (∃ scores, BetweennessCentrality.compute adjGraph longChain sequential (fun l => l) 0 =
      some scores) ∧
    (∀ fuel, search adjGraph longChain fuel
      (startBfs 0 (fun _ => []) (fun _ => 0) fun _ => intMax) = none) ∧
    compute adjGraph longChain = none := by
  have hwithin : WithinGraph adjGraph longChain := chain_within _
  have hsize : 8 * adjGraph.size longChain ≤ 2 ^ 64 := by
    rw [longChain, chain_size]
    norm_num
  have hfits (src : ℕ) (hsrc : src < adjGraph.size longChain) (v : ℕ)
      (_ : v < adjGraph.size longChain) :
      pathCount (adjGraph.forEachEdge longChain) src v ≤ intMax := by
    rw [longChain, chain_size] at hsrc
    exact (chain_pathCount _ src v hsrc).trans (by decide)
  obtain ⟨scores, hrun, -⟩ := compute_all hwithin hsize hfits sequential fun l => l
  have hlong : intMax + 1 < 2 ^ 31 + 1 := by decide
  exact ⟨hwithin, hsize, hfits, ⟨scores, hrun⟩, search_chain hlong, compute_chain hlong⟩

end Scea.SerialBetweennessCentrality
