import GraphLogSketch.Scea.BetweennessCentrality

/-! Breadth-first search with worklists that may name a vertex more than once, and vertices that have
been visited already. The first visit is the one that counts, whatever the interleaving. -/
namespace Scea.SsspBfs
open LevelSearch ShortestPaths
open BetweennessCentrality (WithinGraph rowGraph rowGraph_within)

/-- `numeric_limits<uint64_t>::max()` -/
def unvisited : ℕ := 2 ^ 64 - 1

inductive Pc where
  | check
  | write
  | test
  | push

/-- An iteration of the loop over a worklist: its vertex and the neighbors still to be looked at. -/
structure Task where
  vertex : ℕ
  rest : List ℕ
  pc : Pc

structure LevelState where
  shortestPath : ℕ → ℕ
  nextSt : List ℕ
  task : ℕ → Task

def LevelState.move (s : LevelState) (i : ℕ) (t : Task) : LevelState :=
  { s with task := Function.update s.task i t }

/-- One atomic step of task `i`. -/
def step (level i : ℕ) (s : LevelState) : LevelState :=
  let t := s.task i
  match t.pc, t.rest with
  | .check, _ =>
    if s.shortestPath t.vertex = unvisited then s.move i { t with pc := .write }
    else s.move i ⟨t.vertex, [], .test⟩
  | .write, _ =>
    { s.move i { t with pc := .test } with
      shortestPath := Function.update s.shortestPath t.vertex level }
  | _, [] => s
  | .test, neighbor :: neighbors =>
    if s.shortestPath neighbor = unvisited then s.move i { t with pc := .push }
    else s.move i ⟨t.vertex, neighbors, .test⟩
  | .push, neighbor :: neighbors =>
    { s.move i ⟨t.vertex, neighbors, .test⟩ with nextSt := s.nextSt ++ [neighbor] }

/-- A bound on the steps a task has left. -/
def Task.work (t : Task) : ℕ :=
  match t.pc, t.rest with
  | .check, rest => 2 * rest.length + 2
  | .write, rest => 2 * rest.length + 1
  | _, [] => 0
  | .test, _ :: neighbors => 2 * neighbors.length + 2
  | .push, _ :: neighbors => 2 * neighbors.length + 1

def work (i : ℕ) (s : LevelState) : ℕ := (s.task i).work

variable {σ : Type} (G : MutableGraph σ) (g : σ)

def startLevel (shortestPath : ℕ → ℕ) (currSt : List ℕ) : LevelState :=
  ⟨shortestPath, [], fun i => ⟨currSt.getD i 0, G.forEachEdge g (currSt.getD i 0), .check⟩⟩

/-- The parallel loop over a worklist; `picks` tells which task moves when. -/
def runLevel (picks : List ℕ) (level : ℕ) (shortestPath : ℕ → ℕ) (currSt : List ℕ) : LevelState :=
  Threads.complete (step level) work (List.range currSt.length) picks
    (startLevel G g shortestPath currSt)

/-- The loop over the levels, for at most `fuel` of them. -/
def levels (picks : ℕ → List ℕ) : ℕ → ℕ → (ℕ → ℕ) → List ℕ → Option (ℕ → ℕ)
  | 0, _, _, _ => none
  | fuel + 1, level, shortestPath, nextSt =>
    if nextSt.isEmpty then some shortestPath
    else
      let r := runLevel G g (picks level) level shortestPath nextSt
      levels picks fuel (level + 1) r.shortestPath r.nextSt

/-- The last worklists may hold only vertices that have been visited, so there can be one level more
than there are vertices, and a last one to see that it is empty. -/
def compute (picks : ℕ → List ℕ) (src : ℕ) : Option (ℕ → ℕ) :=
  if G.size g ≤ src then some fun _ => unvisited
  else levels G g picks (G.size g + 2) 0 (fun _ => unvisited) [src]

section Steps
variable {s : LevelState} {i j k : ℕ} {t : Task}

@[simp] theorem move_task_self : (s.move i t).task i = t := Function.update_self ..

theorem move_task_of_ne (h : j ≠ i) : (s.move i t).task j = s.task j := Function.update_of_ne h ..

/-- A step of one task leaves the others where they are. -/
theorem step_task_of_ne (k : ℕ) (h : j ≠ i) : (step k i s).task j = s.task j := by
  unfold step
  dsimp only
  split
  · split_ifs
    · exact move_task_of_ne h
    · exact move_task_of_ne h
  · exact move_task_of_ne h
  · rfl
  · split_ifs
    · exact move_task_of_ne h
    · exact move_task_of_ne h
  · exact move_task_of_ne h

theorem work_step_of_ne (k : ℕ) (h : j ≠ i) : work j (step k i s) = work j s := by
  rw [work, work, step_task_of_ne k h]

theorem Task.work_test (v : ℕ) (rest : List ℕ) : (⟨v, rest, .test⟩ : Task).work = 2 * rest.length := by
  cases rest <;> rfl

/-- A task that has finished has looked at all neighbors. -/
theorem Task.of_work (h : t.work = 0) : t.rest = [] ∧ t.pc ≠ .check ∧ t.pc ≠ .write := by
  obtain ⟨v, rest, pc⟩ := t
  cases pc with
  | check => exact absurd h (Nat.succ_ne_zero _)
  | write => exact absurd h (Nat.succ_ne_zero _)
  | _ =>
    cases rest with
    | nil => simp
    | cons d ds => exact absurd h (Nat.succ_ne_zero _)

theorem step_of_work (k : ℕ) (h : work i s = 0) : step k i s = s := by
  obtain ⟨hrest, hcheck, hwrite⟩ := Task.of_work h
  unfold step
  dsimp only
  split <;> simp_all

/-- Every step of a task that has not finished uses up some of its work. -/
theorem work_step_lt (k : ℕ) (h : work i s ≠ 0) : work i (step k i s) < work i s := by
  rcases ht : s.task i with ⟨v, rest, pc⟩
  rw [work, ht] at h
  rw [work, work, ht]
  cases pc with
  | check =>
    simp only [step, ht]
    split_ifs
    · rw [move_task_self]
      exact Nat.lt_succ_self _
    · rw [move_task_self]
      exact Nat.succ_pos _
  | write =>
    simp only [step, ht]
    refine (congrArg Task.work move_task_self).trans_lt ?_
    rw [Task.work_test]
    exact Nat.lt_succ_self _
  | test =>
    cases rest with
    | nil => exact absurd rfl h
    | cons d ds =>
      simp only [step, ht]
      split_ifs
      · rw [move_task_self]
        exact Nat.lt_succ_self _
      · rw [move_task_self, Task.work_test]
        exact Nat.lt_add_of_pos_right (Nat.succ_pos _)
  | push =>
    cases rest with
    | nil => exact absurd rfl h
    | cons d ds =>
      simp only [step, ht]
      refine (congrArg Task.work move_task_self).trans_lt ?_
      rw [Task.work_test]
      exact Nat.lt_succ_self _

end Steps

section Tasks

/-- What is known where a task stands: it only gets past the check with a vertex of this level. -/
def Task.Ok (out : ℕ → List ℕ) (src k : ℕ) (t : Task) : Prop :=
  match t.pc with
  | .check => t.rest = out t.vertex ∧ ∃ m ≤ k, Distance out src t.vertex m
  | .write => t.rest = out t.vertex ∧ Distance out src t.vertex k
  | _ => ∀ d ∈ t.rest, Distance out src t.vertex k ∧ d ∈ out t.vertex

/-- The task sees to it that its vertex is visited and the neighbors of the next level are pushed. -/
def Task.Visits (out : ℕ → List ℕ) (src k : ℕ) (shortestPath : ℕ → ℕ) (nextSt : List ℕ)
    (t : Task) : Prop :=
  match t.pc with
  | .check => shortestPath t.vertex = unvisited
  | .write => True
  | _ => shortestPath t.vertex = k ∧
    ∀ d ∈ out t.vertex, Distance out src d (k + 1) → d ∈ nextSt ∨ d ∈ t.rest

/-- What holds while the tasks of a level run. -/
structure LevelInv (out : ℕ → List ℕ) (src k n : ℕ) (s : LevelState) : Prop where
  near : ∀ {v m}, Distance out src v m → m < k → s.shortestPath v = m
  beyond : ∀ {v}, Beyond out src k v → s.shortestPath v = unvisited
  next : ∀ v ∈ s.nextSt, ∃ u, Distance out src u k ∧ v ∈ out u
  ok : ∀ i < n, (s.task i).Ok out src k
  visits : ∀ {u}, Distance out src u k → ∃ i < n, (s.task i).vertex = u ∧
    (s.task i).Visits out src k s.shortestPath s.nextSt

variable {s : LevelState} {out : ℕ → List ℕ} {src i k n : ℕ} {t : Task} {nextSt : List ℕ}

/-- What has been pushed stays pushed, and other vertices do not matter. -/
theorem Task.Visits.mono {shortestPath : ℕ → ℕ} (h : t.Visits out src k s.shortestPath s.nextSt)
    (hpath : shortestPath t.vertex = s.shortestPath t.vertex) (hnext : s.nextSt ⊆ nextSt) :
    t.Visits out src k shortestPath nextSt := by
  obtain ⟨v, rest, pc⟩ := t
  cases pc with
  | check => exact hpath.trans h
  | write => trivial
  | _ =>
    exact ⟨hpath.trans h.1, fun d hd hdist => (h.2 d hd hdist).imp_left fun hmem => hnext hmem⟩

/-- One task moves and may push a neighbor; it goes on to visit its vertex if it did before. -/
theorem LevelInv.act (h : LevelInv out src k n s) (t : Task)
    (hvertex : t.vertex = (s.task i).vertex) (hok : t.Ok out src k) (hsub : s.nextSt ⊆ nextSt)
    (hnext : ∀ v ∈ nextSt, ∃ u, Distance out src u k ∧ v ∈ out u)
    (hvisits : (s.task i).Visits out src k s.shortestPath s.nextSt →
      t.Visits out src k s.shortestPath nextSt) :
    LevelInv out src k n { s.move i t with nextSt := nextSt } where
  near := h.near
  beyond := h.beyond
  next := hnext
  ok := by
    intro j hj
    show ((s.move i t).task j).Ok out src k
    by_cases hji : j = i
    · rwa [hji, move_task_self]
    · rw [move_task_of_ne hji]
      exact h.ok j hj
  visits := by
    intro u hu
    obtain ⟨j, hj, hvertex', hvisits'⟩ := h.visits hu
    refine ⟨j, hj, ?_⟩
    show ((s.move i t).task j).vertex = u ∧ ((s.move i t).task j).Visits out src k _ nextSt
    by_cases hji : j = i
    · subst hji
      rw [move_task_self, hvertex]
      exact ⟨hvertex', hvisits hvisits'⟩
    · rw [move_task_of_ne hji]
      exact ⟨hvertex', hvisits'.mono rfl hsub⟩

/-- The tasks that stand at the write for a vertex all write the same; each of them goes on to push
the neighbors. -/
theorem LevelInv.write {v : ℕ} {rest : List ℕ} (h : LevelInv out src k n s) (hi : i < n)
    (ht : s.task i = ⟨v, rest, .write⟩) :
    LevelInv out src k n { s.move i ⟨v, rest, .test⟩ with
      shortestPath := Function.update s.shortestPath v k } := by
  obtain ⟨hrest, hv⟩ : rest = out v ∧ Distance out src v k := by
    have hok := h.ok i hi
    rwa [ht] at hok
  have hother {u m : ℕ} (hu : Distance out src u m) (hm : m ≠ k) : u ≠ v := by
    rintro rfl
    exact hm (hu.unique hv)
  constructor
  case near =>
    intro u m hu hm
    exact (Function.update_of_ne (hother hu hm.ne) ..).trans (h.near hu hm)
  case beyond =>
    intro u hu
    have hne : u ≠ v := by
      rintro rfl
      exact hu k le_rfl hv
    exact (Function.update_of_ne hne ..).trans (h.beyond hu)
  case next => exact h.next
  case ok =>
    intro j hj
    show ((s.move i ⟨v, rest, .test⟩).task j).Ok out src k
    by_cases hji : j = i
    · rw [hji, move_task_self]
      exact fun d hd => ⟨hv, hrest ▸ hd⟩
    · rw [move_task_of_ne hji]
      exact h.ok j hj
  case visits =>
    intro u hu
    show ∃ j < n, ((s.move i ⟨v, rest, .test⟩).task j).vertex = u ∧ _
    by_cases huv : u = v
    · refine ⟨i, hi, ?_⟩
      rw [move_task_self]
      exact ⟨huv.symm, Function.update_self .., fun d hd _ => Or.inr (hrest ▸ hd)⟩
    · obtain ⟨j, hj, hvertex, hvisits⟩ := h.visits hu
      have hji : j ≠ i := by
        rintro rfl
        rw [ht] at hvertex
        exact huv hvertex.symm
      refine ⟨j, hj, ?_⟩
      rw [move_task_of_ne hji]
      exact ⟨hvertex, hvisits.mono (Function.update_of_ne (hvertex ▸ huv) ..)
        (List.Subset.refl _)⟩

/-- Each atomic step of a task keeps the invariant of the level. -/
theorem LevelInv.step (h : LevelInv out src k n s) (hk : k < unvisited) (hi : i < n) :
    LevelInv out src k n (step k i s) := by
  rcases ht : s.task i with ⟨v, rest, pc⟩
  have hok := h.ok i hi
  rw [ht] at hok
  cases pc with
  | check =>
    obtain ⟨hrest, m, hm, hv⟩ := hok
    simp only [SsspBfs.step, ht]
    split_ifs with hd
    · have hmk : m = k := by
        by_contra hne
        have hnear : s.shortestPath v = m := h.near hv (lt_of_le_of_ne hm hne)
        have hd : s.shortestPath v = unvisited := hd
        omega
      apply h.act ⟨v, rest, .write⟩ (by rw [ht]) ⟨hrest, hmk ▸ hv⟩ (List.Subset.refl _) h.next
      exact fun _ => trivial
    · apply h.act ⟨v, [], .test⟩ (by rw [ht]) (fun d hd => absurd hd List.not_mem_nil)
        (List.Subset.refl _) h.next
      intro hvisits
      rw [ht] at hvisits
      exact absurd hvisits hd
  | write =>
    simp only [SsspBfs.step, ht]
    exact h.write hi ht
  | test =>
    cases rest with
    | nil =>
      simp only [SsspBfs.step, ht]
      exact h
    | cons d ds =>
      simp only [SsspBfs.step, ht]
      split_ifs with hd
      · apply h.act ⟨v, d :: ds, .push⟩ (by rw [ht]) hok (List.Subset.refl _) h.next
        intro hvisits
        rw [ht] at hvisits
        exact hvisits
      · apply h.act ⟨v, ds, .test⟩ (by rw [ht]) (fun e he => hok e (List.mem_cons_of_mem d he))
          (List.Subset.refl _) h.next
        intro hvisits
        rw [ht] at hvisits
        refine ⟨hvisits.1, fun e he hdist => ?_⟩
        rcases hvisits.2 e he hdist with hmem | hmem
        · exact Or.inl hmem
        · rcases List.mem_cons.mp hmem with rfl | hmem
          · exact absurd (h.beyond (beyond_of_distance hdist (Nat.lt_succ_self k))) hd
          · exact Or.inr hmem
  | push =>
    cases rest with
    | nil =>
      simp only [SsspBfs.step, ht]
      exact h
    | cons d ds =>
      simp only [SsspBfs.step, ht]
      apply h.act ⟨v, ds, .test⟩ (by rw [ht]) (fun e he => hok e (List.mem_cons_of_mem d he))
        (List.subset_append_left ..)
      · intro w hw
        rcases List.mem_append.mp hw with hw | hw
        · exact h.next w hw
        · obtain rfl := List.mem_singleton.mp hw
          exact ⟨v, hok w List.mem_cons_self⟩
      · intro hvisits
        rw [ht] at hvisits
        refine ⟨hvisits.1, fun e he hdist => ?_⟩
        rcases hvisits.2 e he hdist with hmem | hmem
        · exact Or.inl (List.mem_append_left _ hmem)
        · rcases List.mem_cons.mp hmem with rfl | hmem
          · exact Or.inl (List.mem_append_right _ (List.mem_singleton_self e))
          · exact Or.inr hmem

end Tasks

section Levels
variable {σ : Type} {G : MutableGraph σ} {g : σ} {src k : ℕ} {shortestPath : ℕ → ℕ}
  {worklist : List ℕ}

/-- What a level starts from: all smaller distances are known, and its vertices are in the worklist,
perhaps more than once and among others that are no further away. -/
structure Ready (out : ℕ → List ℕ) (src k : ℕ) (shortestPath : ℕ → ℕ) (worklist : List ℕ) :
    Prop where
  near : ∀ {v m}, Distance out src v m → m < k → shortestPath v = m
  beyond : ∀ {v}, (∀ m < k, ¬ Distance out src v m) → shortestPath v = unvisited
  mem : ∀ {v}, Distance out src v k → v ∈ worklist
  within : ∀ v ∈ worklist, ∃ m ≤ k, Distance out src v m
  before : worklist ≠ [] → ∀ j < k, ∃ u, Distance out src u j

theorem ready_zero (out : ℕ → List ℕ) (src : ℕ) :
    Ready out src 0 (fun _ => unvisited) [src] where
  near _ hm := absurd hm (Nat.not_lt_zero _)
  beyond _ := rfl
  mem hv := List.mem_singleton.mpr (distance_zero_iff.mp hv).symm
  within _ hv := ⟨0, le_rfl, distance_zero_iff.mpr (List.mem_singleton.mp hv).symm⟩
  before _ j hj := absurd hj (Nat.not_lt_zero j)

theorem startLevel_inv (h : Ready (G.forEachEdge g) src k shortestPath worklist) :
    LevelInv (G.forEachEdge g) src k worklist.length (startLevel G g shortestPath worklist) where
  near := h.near
  beyond hv := h.beyond fun m hm => hv m hm.le
  next v hv := absurd hv List.not_mem_nil
  ok := by
    intro i hi
    refine ⟨rfl, h.within _ ?_⟩
    show worklist.getD i 0 ∈ worklist
    simp [hi]
  visits := by
    intro u hu
    obtain ⟨i, hi, hget⟩ := List.getElem_of_mem (h.mem hu)
    have hvertex : ((startLevel G g shortestPath worklist).task i).vertex = u := by
      show worklist.getD i 0 = u
      simp [hi, hget]
    refine ⟨i, hi, hvertex, ?_⟩
    show shortestPath ((startLevel G g shortestPath worklist).task i).vertex = unvisited
    rw [hvertex]
    apply h.beyond
    intro m hm hdist
    have heq := hdist.unique hu
    omega

/-- However the tasks of a level interleave, they leave what the next level starts from. -/
theorem runLevel_ready (hk : k < unvisited)
    (h : Ready (G.forEachEdge g) src k shortestPath worklist) (picks : List ℕ) :
    let r := runLevel G g picks k shortestPath worklist
    Ready (G.forEachEdge g) src (k + 1) r.shortestPath r.nextSt := by
  intro r
  have hinv : LevelInv (G.forEachEdge g) src k worklist.length r :=
    (Threads.complete_run (step k) work (List.range worklist.length) picks _).invariant
      (startLevel_inv h) fun i hi s hs => hs.step hk (List.mem_range.mp hi)
  have hdone (i : ℕ) (hi : i < worklist.length) : (r.task i).work = 0 :=
    Threads.complete_done (step k) work (fun _ _ => work_step_lt k)
      (fun _ _ _ => work_step_of_ne k) (fun _ _ => step_of_work k) _ picks _ i
      (List.mem_range.mpr hi)
  -- whoever sees to a vertex of this level has finished
  have hvisited {u : ℕ} (hu : Distance (G.forEachEdge g) src u k) : r.shortestPath u = k ∧
      ∀ d ∈ G.forEachEdge g u, Distance (G.forEachEdge g) src d (k + 1) → d ∈ r.nextSt := by
    obtain ⟨i, hi, hvertex, hvisits⟩ := hinv.visits hu
    obtain ⟨hrest, hcheck, hwrite⟩ := Task.of_work (hdone i hi)
    unfold Task.Visits at hvisits
    split at hvisits
    · contradiction
    · contradiction
    · rw [hvertex, hrest] at hvisits
      exact ⟨hvisits.1, fun d hd hdist =>
        (hvisits.2 d hd hdist).resolve_right List.not_mem_nil⟩
  constructor
  case near =>
    intro v m hv hm
    rcases Nat.lt_or_eq_of_le (Nat.le_of_lt_succ hm) with hlt | rfl
    · exact hinv.near hv hlt
    · exact (hvisited hv).1
  case beyond => exact fun hv => hinv.beyond fun m hm => hv m (Nat.lt_succ_of_le hm)
  case mem =>
    intro v hv
    obtain ⟨u, hu, hmem⟩ := hv.pred
    exact (hvisited hu).2 v hmem hv
  case within =>
    intro v hv
    obtain ⟨_, hu, hmem⟩ := hinv.next v hv
    exact hu.edge hmem
  case before =>
    intro hne j hj
    obtain ⟨v, hv⟩ := List.exists_mem_of_ne_nil _ hne
    obtain ⟨u, hu, -⟩ := hinv.next v hv
    exact hu.exists_at (Nat.le_of_lt_succ hj)

/-- Every run in which all tasks of the level finish is one that some picks lead to. -/
theorem exists_picks {r : LevelState} (hrun : Threads.Run (List.range worklist.length) (step k)
      (startLevel G g shortestPath worklist) r) (hdone : ∀ i < worklist.length, work i r = 0) :
    ∃ picks, runLevel G g picks k shortestPath worklist = r :=
  Threads.exists_picks (step k) work hrun fun i hi => hdone i (List.mem_range.mp hi)

theorem levels_result (hclosed : WithinGraph G g) (hsize : 8 * G.size g ≤ 2 ^ 64)
    (hsrc : src < G.size g) (picks : ℕ → List ℕ) (fuel : ℕ) (hk : k ≤ G.size g + 1)
    (hfuel : fuel + k = G.size g + 2)
    (h : Ready (G.forEachEdge g) src k shortestPath worklist) :
    ∃ r, levels G g picks fuel k shortestPath worklist = some r ∧
      (∀ v m, Distance (G.forEachEdge g) src v m → r v = m) ∧
      ∀ v, ¬ Reaches (G.forEachEdge g) src v → r v = unvisited := by
  induction fuel generalizing k shortestPath worklist with
  | zero => omega
  | succ fuel ih =>
    rw [levels]
    by_cases hempty : worklist = []
    · refine ⟨shortestPath, by rw [hempty]; rfl, fun v m hv => ?_, fun v hv => ?_⟩
      · apply h.near hv
        by_contra hkm
        obtain ⟨u, hu⟩ := hv.exists_at (not_lt.mp hkm)
        rw [hempty] at h
        exact absurd (h.mem hu) List.not_mem_nil
      · exact h.beyond fun m _ hd => hv hd.reaches
    · have hle : k ≤ G.size g := by
        rcases Nat.eq_zero_or_pos k with rfl | hpos
        · exact Nat.zero_le _
        · obtain ⟨u, hu⟩ := h.before hempty (k - 1) (Nat.sub_lt hpos Nat.one_pos)
          have hlt := hu.lt_card hclosed (Finset.mem_range.mpr hsrc)
          rw [Finset.card_range] at hlt
          omega
      have hk' : k < unvisited := by
        unfold unvisited
        omega
      have hnonempty : ¬ worklist.isEmpty = true := by rwa [List.isEmpty_iff]
      rw [if_neg hnonempty]
      exact ih (by omega) (by omega) (runLevel_ready hk' h (picks k))

end Levels

/-- `compute` ends with the distances from the source, whatever the interleavings. -/
theorem compute_distances {σ : Type} (G : MutableGraph σ) (g : σ) (hclosed : WithinGraph G g)
    (hsize : 8 * G.size g ≤ 2 ^ 64) (picks : ℕ → List ℕ) (src : ℕ) :
    ∃ r, compute G g picks src = some r ∧
      (∀ v m, src < G.size g → Distance (G.forEachEdge g) src v m → r v = m) ∧
      ∀ v, r v = unvisited ↔ ¬ (src < G.size g ∧ Reaches (G.forEachEdge g) src v) := by
  by_cases hsrc : src < G.size g
  · obtain ⟨r, hrun, hdist, hnot⟩ := levels_result hclosed hsize hsrc picks _ (Nat.zero_le _) rfl
      (ready_zero (G.forEachEdge g) src)
    refine ⟨r, ?_, fun v m _ => hdist v m, fun v => ⟨fun heq hreach => ?_, fun hv => ?_⟩⟩
    · rw [compute, if_neg (not_le.mpr hsrc)]
      exact hrun
    · obtain ⟨m, hm⟩ := hreach.2.exists_distance
      have hlt := hm.lt_card hclosed (Finset.mem_range.mpr hsrc)
      rw [Finset.card_range] at hlt
      have hval := hdist v m hm
      unfold unvisited at heq
      omega
    · exact hnot v fun hr => hv ⟨hsrc, hr⟩
  · refine ⟨fun _ => unvisited, ?_, fun v m h => absurd h hsrc, fun v => ?_⟩
    · rw [compute, if_pos (not_lt.mp hsrc)]
    · exact ⟨fun _ h => hsrc h.1, fun _ => rfl⟩

theorem compute_distances_row : ∃ r, compute adjGraph rowGraph (fun _ => [0, 1, 0]) 1 = some r ∧
    ∀ v, r v = unvisited ↔ ¬ (1 < 3 ∧ Reaches (adjGraph.forEachEdge rowGraph) 1 v) := by
  obtain ⟨r, hrun, -, h⟩ := compute_distances adjGraph rowGraph rowGraph_within (by decide)
    (fun _ => [0, 1, 0]) 1
  exact ⟨r, hrun, h⟩

/-- The graph of the test `Small`. -/
def smallGraph : AdjGraph :=
  ⟨[[1, 2, 3], [0, 2, 3], [0, 1, 3], [0, 1, 2, 4, 5], [3, 5], [3, 4, 6], [5]]⟩

example : (compute adjGraph smallGraph (fun _ => []) 1).map (fun r => (List.range 7).map r) =
    some [1, 0, 1, 1, 2, 2, 3] := by decide +kernel

end Scea.SsspBfs
