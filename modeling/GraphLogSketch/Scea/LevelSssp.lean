import GraphLogSketch.Library.LevelSearch
import GraphLogSketch.Library.Threads
import GraphLogSketch.Scea.MutableGraph
import Mathlib.Data.UInt

/-! The forward pass of betweenness centrality: level by level, the tasks of a level race to claim
the vertices of the next one and to add up path counts. Whatever the interleaving, each level of the
search comes out right. -/
namespace Scea.BetweennessCentrality
open LevelSearch ShortestPaths
open scoped UInt64.CommRing

/-- `numeric_limits<uint64_t>::max() / 4` -/
def infinity : ℕ := (2 ^ 64 - 1) / 4

/-- What a task does next with the destination at hand. -/
inductive Pc where
  | check
  | test
  | swap
  | push
  | load
  | add (value : UInt64)
  | retest

/-- An iteration of the loop over a worklist: its vertex and the destinations still to be visited. -/
structure Task where
  vertex : ℕ
  rest : List ℕ
  pc : Pc

/-- What the tasks of a level share, and the tasks. `worklist` is the one of the next level. -/
structure LevelState where
  distance : ℕ → ℕ
  shortestPathCount : ℕ → UInt64
  worklist : List ℕ
  failed : Bool
  task : ℕ → Task

def LevelState.move (s : LevelState) (i : ℕ) (t : Task) : LevelState :=
  { s with task := Function.update s.task i t }

/-- One atomic step of task `i`. Only the distance is read twice: to see whether it is unset, and then
to see whether it is that of the next level. -/
def step (currentLevel i : ℕ) (s : LevelState) : LevelState :=
  let t := s.task i
  match t.pc, t.rest with
  | .check, _ =>
    if s.distance t.vertex = currentLevel then s.move i { t with pc := .test }
    else { s.move i { t with rest := [], pc := .test } with failed := true }
  | _, [] => s
  | .test, dest :: _ =>
    s.move i { t with pc := if s.distance dest = infinity then .swap else .retest }
  | .swap, dest :: _ =>
    if s.distance dest = infinity then
      { s.move i { t with pc := .push } with
        distance := Function.update s.distance dest (currentLevel + 1) }
    else s.move i { t with pc := .load }
  | .push, dest :: _ =>
    { s.move i { t with pc := .load } with worklist := s.worklist ++ [dest] }
  | .load, _ :: _ => s.move i { t with pc := .add (s.shortestPathCount t.vertex) }
  | .add value, dest :: dests =>
    { s.move i ⟨t.vertex, dests, .test⟩ with
      shortestPathCount :=
        Function.update s.shortestPathCount dest (s.shortestPathCount dest + value) }
  | .retest, dest :: dests =>
    if s.distance dest = currentLevel + 1 then s.move i { t with pc := .load }
    else s.move i ⟨t.vertex, dests, .test⟩

def Pc.weight : Pc → ℕ
  | .check => 7
  | .test => 6
  | .swap => 5
  | .retest => 5
  | .push => 4
  | .load => 3
  | .add _ => 2

/-- A bound on the steps a task has left. -/
def Task.work (t : Task) : ℕ :=
  match t.pc, t.rest with
  | .check, rest => 6 * rest.length + 1
  | _, [] => 0
  | pc, _ :: dests => 6 * dests.length + pc.weight

def work (i : ℕ) (s : LevelState) : ℕ := (s.task i).work

variable {σ : Type} (G : MutableGraph σ) (g : σ)

def startLevel (distance : ℕ → ℕ) (count : ℕ → UInt64) (worklist : List ℕ) : LevelState :=
  ⟨distance, count, [], false, fun i =>
    ⟨worklist.getD i 0, G.forEachEdge g (worklist.getD i 0), .check⟩⟩

/-- The parallel loop over a worklist; `picks` tells which task moves when. -/
def runLevel (picks : List ℕ) (currentLevel : ℕ) (distance : ℕ → ℕ) (count : ℕ → UInt64)
    (worklist : List ℕ) : LevelState :=
  Threads.complete (step currentLevel) work (List.range worklist.length) picks
    (startLevel G g distance count worklist)

structure Sssp where
  distance : ℕ → ℕ
  shortestPathCount : ℕ → UInt64
  stackOfWorklists : List (List ℕ)

/-- The loop over the levels, for at most `fuel` of them. A failed assertion aborts. -/
def levels (picks : ℕ → List ℕ) : ℕ → ℕ → Sssp → Option Sssp
  | 0, _, _ => none
  | fuel + 1, currentLevel, s =>
    let worklist := s.stackOfWorklists.getD currentLevel []
    if worklist.isEmpty then some s
    else
      let r := runLevel G g (picks currentLevel) currentLevel s.distance s.shortestPathCount worklist
      if r.failed then none
      else levels picks fuel (currentLevel + 1)
        ⟨r.distance, r.shortestPathCount, s.stackOfWorklists ++ [r.worklist]⟩

/-- No level is entered more often than there are vertices, and once more to see that it is empty. -/
def levelSSSP (picks : ℕ → List ℕ) (s : ℕ) (distance : ℕ → ℕ) (count : ℕ → UInt64) : Option Sssp :=
  levels G g picks (G.size g + 1) 0
    ⟨Function.update distance s 0, Function.update count s 1, [[s]]⟩

section Steps
variable {s : LevelState} {i j n k : ℕ} {t : Task}

@[simp] theorem move_task_self : (s.move i t).task i = t := Function.update_self ..

theorem move_task_of_ne (h : j ≠ i) : (s.move i t).task j = s.task j := Function.update_of_ne h ..

/-- A step of one task leaves the others where they are. -/
theorem step_task_of_ne (k : ℕ) (h : j ≠ i) : (step k i s).task j = s.task j := by
  unfold step
  dsimp only
  split
  · split_ifs
    · exact move_task_of_ne h
    · exact move_task_of_ne h
  · rfl
  · exact move_task_of_ne h
  · split_ifs
    · exact move_task_of_ne h
    · exact move_task_of_ne h
  · exact move_task_of_ne h
  · exact move_task_of_ne h
  · exact move_task_of_ne h
  · split_ifs
    · exact move_task_of_ne h
    · exact move_task_of_ne h

theorem work_step_of_ne (k : ℕ) (h : j ≠ i) : work j (step k i s) = work j s := by
  rw [work, work, step_task_of_ne k h]

theorem Task.work_rest (v : ℕ) (rest : List ℕ) : (⟨v, rest, .test⟩ : Task).work = 6 * rest.length := by
  cases rest <;> rfl

theorem Task.rest_of_work (h : t.work = 0) : t.rest = [] := by
  obtain ⟨v, rest, pc⟩ := t
  cases rest with
  | nil => rfl
  | cons d ds => cases pc <;> exact absurd h (Nat.succ_ne_zero _)

/-- A task that has finished does nothing. -/
theorem step_of_work (k : ℕ) (h : work i s = 0) : step k i s = s := by
  have hrest := Task.rest_of_work h
  have hpc : (s.task i).pc ≠ .check := by
    intro hpc
    rw [work, Task.work, hpc] at h
    exact absurd h (Nat.succ_ne_zero _)
  unfold step
  dsimp only
  split <;> simp_all

/-- Every step of a task that has not finished uses up some of its work. -/
theorem work_step_lt (k : ℕ) (h : work i s ≠ 0) : work i (step k i s) < work i s := by
  rcases ht : s.task i with ⟨v, rest, pc⟩
  rw [work, ht] at h
  rw [work, work, ht]
  cases rest with
  | nil =>
    cases pc with
    | check =>
      simp only [step, ht]
      split_ifs
      · rw [move_task_self]
        exact Nat.zero_lt_one
      · exact (congrArg Task.work move_task_self).trans_lt Nat.zero_lt_one
    | _ => exact absurd rfl h
  | cons d ds =>
    cases pc with
    | check =>
      simp only [step, ht]
      split_ifs
      · rw [move_task_self]
        exact Nat.lt_succ_self _
      · exact (congrArg Task.work move_task_self).trans_lt (Nat.succ_pos _)
    | test =>
      simp only [step, ht]
      rw [move_task_self]
      split_ifs
      · exact Nat.lt_succ_self _
      · exact Nat.lt_succ_self _
    | swap =>
      simp only [step, ht]
      split_ifs
      · exact (congrArg Task.work move_task_self).trans_lt (Nat.lt_succ_self _)
      · rw [move_task_self]
        exact Nat.add_lt_add_left (show 3 < 5 by decide) _
    | push =>
      simp only [step, ht]
      exact (congrArg Task.work move_task_self).trans_lt (Nat.lt_succ_self _)
    | load =>
      simp only [step, ht]
      rw [move_task_self]
      exact Nat.lt_succ_self _
    | add value =>
      simp only [step, ht]
      refine (congrArg Task.work move_task_self).trans_lt ?_
      rw [Task.work_rest]
      exact Nat.lt_add_of_pos_right (Nat.succ_pos _)
    | retest =>
      simp only [step, ht]
      split_ifs
      · rw [move_task_self]
        exact Nat.add_lt_add_left (show 3 < 5 by decide) _
      · rw [move_task_self, Task.work_rest]
        exact Nat.lt_add_of_pos_right (Nat.succ_pos _)

end Steps

section Tasks

/-- The edges a task has still to look at. -/
def Task.pending (t : Task) : Multiset (ℕ × ℕ) := Multiset.ofList (t.rest.map fun d => (t.vertex, d))

/-- The vertex a task has claimed but not pushed yet. -/
def Task.pushing (t : Task) : Multiset ℕ :=
  match t.pc, t.rest with
  | .push, dest :: _ => {dest}
  | _, _ => 0

/-- The level as the abstract search sees it: a vertex about to be pushed has been claimed. -/
def LevelState.view (n : ℕ) (s : LevelState) : State ℕ UInt64 :=
  ⟨s.distance, s.shortestPathCount,
    Multiset.ofList s.worklist + ∑ i ∈ Finset.range n, (s.task i).pushing,
    ∑ i ∈ Finset.range n, (s.task i).pending⟩

/-- What a task knows about the destination at hand. -/
def Task.Knows (out : ℕ → List ℕ) (src k : ℕ) (distance : ℕ → ℕ) (t : Task) : Prop :=
  match t.pc, t.rest with
  | .swap, dest :: _ => Beyond out src k dest
  | .push, dest :: _ => distance dest = k + 1
  | .load, dest :: _ => distance dest = k + 1
  | .add value, dest :: _ => distance dest = k + 1 ∧ value = ((walkCount out k src t.vertex : ℕ) : UInt64)
  | .retest, dest :: _ => distance dest ≠ infinity
  | _, _ => True

/-- What holds while the tasks of a level run. -/
structure LevelInv (out : ℕ → List ℕ) (src k n : ℕ) (s : LevelState) : Prop where
  search : LevelSearch.Inv out src infinity k (s.view n)
  vertex : ∀ i < n, Distance out src (s.task i).vertex k
  knows : ∀ i < n, (s.task i).Knows out src k s.distance
  alive : s.failed = false

variable {s : LevelState} {out : ℕ → List ℕ} {src i j k n : ℕ} {t : Task}

/-- Knowledge outlives changes of the distances that only claim vertices. -/
theorem Task.Knows.mono {distance distance' : ℕ → ℕ} (h : t.Knows out src k distance)
    (hk : k + 1 ≠ infinity)
    (hd : ∀ v, distance' v = distance v ∨ distance v = infinity ∧ distance' v = k + 1) :
    t.Knows out src k distance' := by
  have hset {v : ℕ} (hv : distance v = k + 1) : distance' v = k + 1 := by
    rcases hd v with heq | ⟨hinf, -⟩
    · exact heq.trans hv
    · exact absurd (hv.symm.trans hinf) hk
  have hunset {v : ℕ} (hv : distance v ≠ infinity) : distance' v ≠ infinity := by
    rcases hd v with heq | ⟨hinf, -⟩
    · exact heq ▸ hv
    · exact absurd hinf hv
  obtain ⟨v, rest, pc⟩ := t
  cases rest with
  | nil => cases pc <;> exact h
  | cons d ds =>
    cases pc with
    | push => exact hset h
    | load => exact hset h
    | add value => exact ⟨hset h.1, h.2⟩
    | retest => exact hunset h
    | _ => exact h

/-- A sum over the tasks, with one of them taken out. -/
theorem sum_tasks {M : Type*} [AddCommMonoid M] (f : Task → M) (hi : i < n) (s : LevelState) :
    ∑ j ∈ Finset.range n, f (s.task j) =
      f (s.task i) + ∑ j ∈ (Finset.range n).erase i, f (s.task j) :=
  (Finset.add_sum_erase _ (fun j => f (s.task j)) (Finset.mem_range.mpr hi)).symm

theorem sum_others {M : Type*} [AddCommMonoid M] (f : Task → M) (s : LevelState) (t : Task) :
    ∑ j ∈ (Finset.range n).erase i, f ((s.move i t).task j) =
      ∑ j ∈ (Finset.range n).erase i, f (s.task j) :=
  Finset.sum_congr rfl fun j hj => by rw [move_task_of_ne (Finset.ne_of_mem_erase hj)]

/-- One task moves: what the others have claimed and look at stays the same. -/
theorem LevelInv.act (h : LevelInv out src k n s) (hk : k + 1 < infinity) (hi : i < n) (t : Task)
    {distance : ℕ → ℕ} {count : ℕ → UInt64} {worklist : List ℕ}
    (hvertex : t.vertex = (s.task i).vertex)
    (hd : ∀ v, distance v = s.distance v ∨ s.distance v = infinity ∧ distance v = k + 1)
    (hknows : t.Knows out src k distance)
    (hsearch : ∀ claimed pending, LevelSearch.Inv out src infinity k
        ⟨s.distance, s.shortestPathCount, Multiset.ofList s.worklist + ((s.task i).pushing + claimed),
          (s.task i).pending + pending⟩ →
      LevelSearch.Inv out src infinity k
        ⟨distance, count, Multiset.ofList worklist + (t.pushing + claimed), t.pending + pending⟩) :
    LevelInv out src k n
      { s.move i t with distance := distance, shortestPathCount := count, worklist := worklist } where
  search := by
    show LevelSearch.Inv out src infinity k ⟨distance, count,
      Multiset.ofList worklist + ∑ j ∈ Finset.range n, ((s.move i t).task j).pushing,
      ∑ j ∈ Finset.range n, ((s.move i t).task j).pending⟩
    rw [sum_tasks Task.pushing hi, sum_tasks Task.pending hi, sum_others, sum_others, move_task_self]
    apply hsearch
    rw [← sum_tasks Task.pushing hi, ← sum_tasks Task.pending hi]
    exact h.search
  vertex := by
    intro j hj
    show Distance out src ((s.move i t).task j).vertex k
    by_cases hji : j = i
    · rw [hji, move_task_self, hvertex]
      exact h.vertex i hi
    · rw [move_task_of_ne hji]
      exact h.vertex j hj
  knows := by
    intro j hj
    show ((s.move i t).task j).Knows out src k distance
    by_cases hji : j = i
    · rw [hji, move_task_self]
      exact hknows
    · rw [move_task_of_ne hji]
      exact (h.knows j hj).mono hk.ne hd
  alive := h.alive

theorem knows_test (out : ℕ → List ℕ) (src k : ℕ) (distance : ℕ → ℕ) (v : ℕ) (rest : List ℕ) :
    (⟨v, rest, .test⟩ : Task).Knows out src k distance := by cases rest <;> exact trivial

theorem Task.pushing_test (v : ℕ) (rest : List ℕ) : (⟨v, rest, .test⟩ : Task).pushing = 0 := by
  cases rest <;> rfl

theorem Task.pending_cons (v d : ℕ) (ds : List ℕ) (pc : Pc) :
    (⟨v, d :: ds, pc⟩ : Task).pending = (v, d) ::ₘ (⟨v, ds, .test⟩ : Task).pending := rfl

section Moves
variable {v d : ℕ} {rest ds : List ℕ} {pc : Pc} (h : LevelInv out src k n s) (hk : k + 1 < infinity)
  (hi : i < n)
include h hk hi

/-- One task moves without a change that the others could see. -/
theorem LevelInv.moveOn (ht : s.task i = ⟨v, rest, pc⟩) (pc' : Pc)
    (hpushing : (⟨v, rest, pc'⟩ : Task).pushing = (⟨v, rest, pc⟩ : Task).pushing)
    (hknows : (⟨v, rest, pc'⟩ : Task).Knows out src k s.distance) :
    LevelInv out src k n (s.move i ⟨v, rest, pc'⟩) := by
  apply h.act hk hi ⟨v, rest, pc'⟩ (by rw [ht]) (fun _ => Or.inl rfl) hknows
  intro claimed pending hinv
  rw [ht] at hinv
  rw [hpushing]
  exact hinv

/-- The swap that succeeds claims the destination. -/
theorem LevelInv.swap (ht : s.task i = ⟨v, d :: ds, .swap⟩) (hd : s.distance d = infinity) :
    LevelInv out src k n { s.move i ⟨v, d :: ds, .push⟩ with
      distance := Function.update s.distance d (k + 1) } := by
  apply h.act hk hi ⟨v, d :: ds, .push⟩ (by rw [ht])
  · intro w
    by_cases hw : w = d
    · rw [hw]
      exact Or.inr ⟨hd, Function.update_self ..⟩
    · exact Or.inl (Function.update_of_ne hw ..)
  · exact Function.update_self ..
  · intro claimed pending hinv
    rw [ht] at hinv
    have hmem : (v, d) ∈ (⟨v, d :: ds, .swap⟩ : Task).pending + pending :=
      Multiset.mem_add.mpr (Or.inl (Multiset.mem_coe.mpr List.mem_cons_self))
    have hclaim := hinv.claim hk hmem hd
    have hclaimed : (v, d).2 ::ₘ (Multiset.ofList s.worklist +
        ((⟨v, d :: ds, .swap⟩ : Task).pushing + claimed)) = Multiset.ofList s.worklist +
          ((⟨v, d :: ds, .push⟩ : Task).pushing + claimed) := by
      show d ::ₘ (_ + (0 + claimed)) = _ + ({d} + claimed)
      rw [zero_add, Multiset.singleton_add, Multiset.add_cons]
    rw [hclaimed] at hclaim
    exact hclaim

/-- What has been claimed gets into the worklist. -/
theorem LevelInv.push (ht : s.task i = ⟨v, d :: ds, .push⟩) (hd : s.distance d = k + 1) :
    LevelInv out src k n { s.move i ⟨v, d :: ds, .load⟩ with worklist := s.worklist ++ [d] } := by
  apply h.act hk hi ⟨v, d :: ds, .load⟩ (by rw [ht]) (fun _ => Or.inl rfl) hd
  intro claimed pending hinv
  rw [ht] at hinv
  have hclaimed : Multiset.ofList s.worklist + ((⟨v, d :: ds, .push⟩ : Task).pushing + claimed) =
      Multiset.ofList (s.worklist ++ [d]) +
        ((⟨v, d :: ds, .load⟩ : Task).pushing + claimed) := by
    show _ + ({d} + claimed) = _ + (0 + claimed)
    rw [zero_add, ← add_assoc, ← Multiset.coe_add]
    rfl
  rw [hclaimed] at hinv
  exact hinv

/-- A task is done with a destination and goes on to the next one. -/
theorem LevelInv.advance (ht : s.task i = ⟨v, d :: ds, pc⟩)
    (hpushing : (⟨v, d :: ds, pc⟩ : Task).pushing = 0) {count : ℕ → UInt64}
    (hsearch : ∀ claimed pending, LevelSearch.Inv out src infinity k
        ⟨s.distance, s.shortestPathCount, claimed, (v, d) ::ₘ pending⟩ →
      LevelSearch.Inv out src infinity k ⟨s.distance, count, claimed, pending⟩) :
    LevelInv out src k n { s.move i ⟨v, ds, .test⟩ with shortestPathCount := count } := by
  apply h.act hk hi ⟨v, ds, .test⟩ (by rw [ht]) (fun _ => Or.inl rfl) (knows_test ..)
  intro claimed pending hinv
  rw [ht, hpushing, Task.pending_cons, Multiset.cons_add] at hinv
  rw [Task.pushing_test]
  exact hsearch _ _ hinv

end Moves

/-- Each atomic step of a task keeps the invariant of the level. -/
theorem LevelInv.step (h : LevelInv out src k n s) (hk : k + 1 < infinity) (hi : i < n) :
    LevelInv out src k n (step k i s) := by
  rcases ht : s.task i with ⟨v, rest, pc⟩
  have hvertex : Distance out src v k := by
    have hv := h.vertex i hi
    rwa [ht] at hv
  have hknows := h.knows i hi
  rw [ht] at hknows
  cases rest with
  | nil =>
    cases pc with
    | check =>
      have hdist : s.distance v = k := (h.search.near hvertex le_rfl).1
      simp only [BetweennessCentrality.step, ht, if_pos hdist]
      exact h.moveOn hk hi ht .test rfl (knows_test ..)
    | _ =>
      simp only [BetweennessCentrality.step, ht]
      exact h
  | cons d ds =>
    cases pc with
    | check =>
      have hdist : s.distance v = k := (h.search.near hvertex le_rfl).1
      simp only [BetweennessCentrality.step, ht, if_pos hdist]
      exact h.moveOn hk hi ht .test rfl (knows_test ..)
    | test =>
      simp only [BetweennessCentrality.step, ht]
      split_ifs with hd
      · apply h.moveOn hk hi ht .swap rfl
        intro m hm hdist
        have hnear : s.distance d = m := (h.search.near hdist hm).1
        omega
      · exact h.moveOn hk hi ht .retest rfl hd
    | swap =>
      simp only [BetweennessCentrality.step, ht]
      split_ifs with hd
      · exact h.swap hk hi ht hd
      · exact h.moveOn hk hi ht .load rfl ((h.search.beyond hknows).resolve_left hd).1
    | push =>
      simp only [BetweennessCentrality.step, ht]
      exact h.push hk hi ht hknows
    | load =>
      simp only [BetweennessCentrality.step, ht]
      exact h.moveOn hk hi ht (.add _) rfl ⟨hknows, (h.search.near hvertex le_rfl).2⟩
    | add value =>
      simp only [BetweennessCentrality.step, ht]
      apply h.advance hk hi ht rfl
      intro claimed pending hinv
      rw [hknows.2]
      exact hinv.settle hk hknows.1
    | retest =>
      simp only [BetweennessCentrality.step, ht]
      split_ifs with hd
      · exact h.moveOn hk hi ht .load rfl hd
      · exact h.advance hk hi ht rfl fun claimed pending hinv => hinv.skip hknows hd

end Tasks

section Levels
variable {σ : Type} {G : MutableGraph σ} {g : σ} {src k : ℕ} {distance : ℕ → ℕ}
  {count : ℕ → UInt64} {worklist : List ℕ}

theorem sum_getD {M : Type*} [AddCommMonoid M] (f : ℕ → M) (l : List ℕ) :
    ∑ i ∈ Finset.range l.length, f (l.getD i 0) = (l.map f).sum := by
  induction l with
  | nil => rfl
  | cons a l ih =>
    rw [List.length_cons, Finset.sum_range_succ', List.map_cons, List.sum_cons, ← ih, add_comm]
    rfl

/-- The edges of the graph stay within its vertices. -/
def WithinGraph (G : MutableGraph σ) (g : σ) : Prop :=
  Closed (G.forEachEdge g) (Finset.range (G.size g))

theorem WithinGraph.lt_size (hclosed : WithinGraph G g) (hsrc : src < G.size g) {v : ℕ}
    (hv : Reaches (G.forEachEdge g) src v) : v < G.size g := by
  obtain ⟨n, hn⟩ := hv
  exact Finset.mem_range.mp (hclosed.mem_of_walk (Finset.mem_range.mpr hsrc) hn)

/-- Counts are bounded everywhere if they are for the vertices. -/
theorem WithinGraph.pathCount_le (hclosed : WithinGraph G g) (hsrc : src < G.size g) {bound : ℕ}
    (hfits : ∀ v < G.size g, pathCount (G.forEachEdge g) src v ≤ bound) (v : ℕ) :
    pathCount (G.forEachEdge g) src v ≤ bound := by
  by_cases hv : v < G.size g
  · exact hfits v hv
  · rw [pathCount_eq_zero fun hr => hv (hclosed.lt_size hsrc hr)]
    exact Nat.zero_le _

theorem startLevel_inv (hclosed : WithinGraph G g) (hsrc : src < G.size g) (hk : k + 1 < infinity)
    (hcomplete : Complete (G.forEachEdge g) src infinity k distance count)
    (hlevel : IsLevel (G.forEachEdge g) src k (Multiset.ofList worklist)) :
    LevelInv (G.forEachEdge g) src k worklist.length (startLevel G g distance count worklist) where
  search := by
    have hpending : ∑ i ∈ Finset.range worklist.length,
        ((startLevel G g distance count worklist).task i).pending =
          edgesFrom (G.forEachEdge g) (Multiset.ofList worklist) :=
      (sum_getD (fun v => Multiset.ofList ((G.forEachEdge g v).map fun d => (v, d))) worklist).trans
        rfl
    have hpushing : ∑ i ∈ Finset.range worklist.length,
        ((startLevel G g distance count worklist).task i).pushing = 0 :=
      Finset.sum_eq_zero fun i _ => rfl
    rw [LevelState.view, hpending, hpushing]
    exact hcomplete.start hclosed (Finset.mem_range.mpr hsrc) hk hlevel
  vertex := by
    intro i hi
    apply hlevel.mem_iff.mp
    show worklist.getD i 0 ∈ worklist
    simp [hi]
  knows i _ := trivial
  alive := rfl

/-- However the tasks of a level interleave, they end with the next level. -/
theorem runLevel_complete (hclosed : WithinGraph G g) (hsrc : src < G.size g)
    (hk : k + 1 < infinity)
    (hcomplete : Complete (G.forEachEdge g) src infinity k distance count)
    (hlevel : IsLevel (G.forEachEdge g) src k (Multiset.ofList worklist)) (picks : List ℕ) :
    let r := runLevel G g picks k distance count worklist
    r.failed = false ∧
      Complete (G.forEachEdge g) src infinity (k + 1) r.distance r.shortestPathCount ∧
      IsLevel (G.forEachEdge g) src (k + 1) (Multiset.ofList r.worklist) := by
  intro r
  have hinv : LevelInv (G.forEachEdge g) src k worklist.length r :=
    (Threads.complete_run (step k) work (List.range worklist.length) picks _).invariant
      (startLevel_inv hclosed hsrc hk hcomplete hlevel)
      fun i hi s hs => hs.step hk (List.mem_range.mp hi)
  have hdone (i : ℕ) (hi : i ∈ Finset.range worklist.length) : (r.task i).rest = [] := by
    apply Task.rest_of_work
    exact Threads.complete_done (step k) work (fun _ _ => work_step_lt k)
      (fun _ _ _ => work_step_of_ne k) (fun _ _ => step_of_work k) _ picks _ i
      (List.mem_range.mpr (Finset.mem_range.mp hi))
  have hpending : ∑ i ∈ Finset.range worklist.length, (r.task i).pending = 0 :=
    Finset.sum_eq_zero fun i hi => by rw [Task.pending, hdone i hi]; rfl
  have hpushing : ∑ i ∈ Finset.range worklist.length, (r.task i).pushing = 0 :=
    Finset.sum_eq_zero fun i hi => by
      rw [Task.pushing, hdone i hi]
      split
      · contradiction
      · rfl
  have hsearch := hinv.search
  rw [LevelState.view, hpending, hpushing, add_zero] at hsearch
  exact ⟨hinv.alive, hsearch.finish hk⟩

/-- Every run in which all tasks of the level finish is one that some picks lead to. -/
theorem exists_picks {r : LevelState} (hrun : Threads.Run (List.range worklist.length) (step k)
      (startLevel G g distance count worklist) r) (hdone : ∀ i < worklist.length, work i r = 0) :
    ∃ picks, runLevel G g picks k distance count worklist = r :=
  Threads.exists_picks (step k) work hrun fun i hi => hdone i (List.mem_range.mp hi)

/-- The worklists up to level `last`, where none but the last one can be empty. -/
structure Searched (G : MutableGraph σ) (g : σ) (src : ℕ) (r : Sssp) (last : ℕ) : Prop where
  length : r.stackOfWorklists.length = last + 1
  level : ∀ j ≤ last, IsLevel (G.forEachEdge g) src j (Multiset.ofList (r.stackOfWorklists.getD j []))
  nonempty : ∀ j < last, r.stackOfWorklists.getD j [] ≠ []
  complete : Complete (G.forEachEdge g) src infinity last r.distance r.shortestPathCount

/-- A level that is not empty adds the next one. -/
theorem Searched.next {s : Sssp} (hs : Searched G g src s k) {distance : ℕ → ℕ}
    {count : ℕ → UInt64} {worklist : List ℕ} (hne : s.stackOfWorklists.getD k [] ≠ [])
    (hcomplete : Complete (G.forEachEdge g) src infinity (k + 1) distance count)
    (hlevel : IsLevel (G.forEachEdge g) src (k + 1) (Multiset.ofList worklist)) :
    Searched G g src ⟨distance, count, s.stackOfWorklists ++ [worklist]⟩ (k + 1) := by
  have hold (j : ℕ) (hj : j ≤ k) :
      (s.stackOfWorklists ++ [worklist]).getD j [] = s.stackOfWorklists.getD j [] := by
    rw [List.getD_eq_getElem?_getD, List.getElem?_append_left (by rw [hs.length]; omega),
      List.getD_eq_getElem?_getD]
  have hnew : (s.stackOfWorklists ++ [worklist]).getD (k + 1) [] = worklist := by
    rw [List.getD_eq_getElem?_getD, List.getElem?_append_right (by rw [hs.length])]
    simp [hs.length]
  refine ⟨by simp [hs.length], fun j hj => ?_, fun j hj => ?_, hcomplete⟩
  · show IsLevel _ src j (Multiset.ofList ((s.stackOfWorklists ++ [worklist]).getD j []))
    rcases Nat.lt_or_eq_of_le hj with hlt | rfl
    · rw [hold j (Nat.le_of_lt_succ hlt)]
      exact hs.level j (Nat.le_of_lt_succ hlt)
    · rwa [hnew]
  · show (s.stackOfWorklists ++ [worklist]).getD j [] ≠ []
    rw [hold j (Nat.le_of_lt_succ hj)]
    rcases Nat.lt_or_eq_of_le (Nat.le_of_lt_succ hj) with hlt | rfl
    · exact hs.nonempty j hlt
    · exact hne

theorem isLevel_lt_size (hclosed : WithinGraph G g) (hsrc : src < G.size g)
    (hlevel : IsLevel (G.forEachEdge g) src k (Multiset.ofList worklist)) (hne : worklist ≠ []) :
    k < G.size g := by
  obtain ⟨v, hv⟩ := List.exists_mem_of_ne_nil worklist hne
  have hlt := (hlevel.mem_iff.mp (Multiset.mem_coe.mpr hv)).lt_card hclosed
    (Finset.mem_range.mpr hsrc)
  rwa [Finset.card_range] at hlt

theorem levels_result (hclosed : WithinGraph G g) (hsize : 8 * G.size g ≤ 2 ^ 64)
    (hsrc : src < G.size g) (picks : ℕ → List ℕ) (fuel : ℕ) (hk : k ≤ G.size g)
    (hfuel : fuel + k = G.size g + 1) {s : Sssp} (hs : Searched G g src s k) :
    ∃ r last, levels G g picks fuel k s = some r ∧ Searched G g src r last ∧
      r.stackOfWorklists.getD last [] = [] := by
  induction fuel generalizing k s with
  | zero => omega
  | succ fuel ih =>
    rw [levels]
    by_cases hempty : s.stackOfWorklists.getD k [] = []
    · refine ⟨s, k, ?_, hs, hempty⟩
      simp only [hempty, List.isEmpty_nil, if_true]
    · have hlt := isLevel_lt_size hclosed hsrc (hs.level k le_rfl) hempty
      have hinf : k + 1 < infinity := by
        unfold infinity
        omega
      obtain ⟨halive, hcomplete, hlevel⟩ := runLevel_complete hclosed hsrc hinf hs.complete
        (hs.level k le_rfl) (picks k)
      obtain ⟨r, last, hrun, hr, hlast⟩ := ih hlt (by omega) (hs.next hempty hcomplete hlevel)
      have hnonempty : ¬ (s.stackOfWorklists.getD k []).isEmpty = true := by
        rwa [List.isEmpty_iff]
      refine ⟨r, last, ?_, hr, hlast⟩
      simp only [if_neg hnonempty, halive, Bool.false_eq_true, if_false]
      exact hrun

/-- `levelSSSP` ends with the levels of the search, whatever the interleavings, and with no assertion
failed. -/
theorem levelSSSP_result (hclosed : WithinGraph G g) (hsize : 8 * G.size g ≤ 2 ^ 64)
    (hsrc : src < G.size g) (picks : ℕ → List ℕ) :
    ∃ r last, levelSSSP G g picks src (fun _ => infinity) (fun _ => 0) = some r ∧
      Searched G g src r last ∧ r.stackOfWorklists.getD last [] = [] := by
  apply levels_result hclosed hsize hsrc picks _ (Nat.zero_le _) rfl
  refine ⟨rfl, fun j hj => ?_, fun j hj => absurd hj (Nat.not_lt_zero j), complete_zero src⟩
  obtain rfl := Nat.le_zero.mp hj
  exact isLevel_zero src

/-- A search that has ended: its last worklist is empty. -/
structure Ended (G : MutableGraph σ) (g : σ) (src : ℕ) (r : Sssp) (last : ℕ) : Prop where
  searched : Searched G g src r last
  empty : r.stackOfWorklists.getD last [] = []

namespace Ended
variable {r : Sssp} {last v m : ℕ}

theorem lt_last (h : Ended G g src r last) (hv : Distance (G.forEachEdge g) src v m) :
    m < last := by
  have hlevel := h.searched.level last le_rfl
  rw [h.empty] at hlevel
  exact lt_of_isLevel_zero hlevel hv

theorem last_le (h : Ended G g src r last) (hclosed : WithinGraph G g) (hsrc : src < G.size g) :
    last ≤ G.size g := by
  rcases Nat.eq_zero_or_pos last with rfl | hpos
  · exact Nat.zero_le _
  · have hlt := isLevel_lt_size hclosed hsrc (h.searched.level (last - 1) (Nat.sub_le last 1))
      (h.searched.nonempty (last - 1) (Nat.sub_lt hpos Nat.one_pos))
    omega

theorem near (h : Ended G g src r last) (hv : Distance (G.forEachEdge g) src v m) :
    r.distance v = m ∧ r.shortestPathCount v = (pathCount (G.forEachEdge g) src v : UInt64) := by
  rw [hv.pathCount]
  exact h.searched.complete.near hv (h.lt_last hv).le

theorem distance_of_not_reaches (h : Ended G g src r last)
    (hv : ¬ Reaches (G.forEachEdge g) src v) : r.distance v = infinity :=
  (h.searched.complete.beyond fun _ _ hd => hv hd.reaches).1

/-- The worklists hold the levels. -/
theorem mem_level (h : Ended G g src r last) (hm : m ≤ last) :
    v ∈ r.stackOfWorklists.getD m [] ↔ Distance (G.forEachEdge g) src v m :=
  (h.searched.level m hm).mem_iff

theorem nodup_level (h : Ended G g src r last) (hm : m ≤ last) :
    (r.stackOfWorklists.getD m []).Nodup :=
  Multiset.coe_nodup.mp (h.searched.level m hm).nodup

end Ended

theorem levelSSSP_ended (hclosed : WithinGraph G g) (hsize : 8 * G.size g ≤ 2 ^ 64)
    (hsrc : src < G.size g) (picks : ℕ → List ℕ) :
    ∃ r last, levelSSSP G g picks src (fun _ => infinity) (fun _ => 0) = some r ∧
      Ended G g src r last ∧ last < infinity := by
  obtain ⟨r, last, hrun, hr, hempty⟩ := levelSSSP_result hclosed hsize hsrc picks
  have hended : Ended G g src r last := ⟨hr, hempty⟩
  have hle := hended.last_le hclosed hsrc
  refine ⟨r, last, hrun, hended, ?_⟩
  unfold infinity
  omega

end Levels

end Scea.BetweennessCentrality
