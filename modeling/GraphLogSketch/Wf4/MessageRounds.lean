import GraphLogSketch.Library.ExchangeRuns
import Mathlib.Data.UInt

/-! The message rounds of the whole program. Four exchanges tag their messages with counters of their
own; the counters start apart but may run into each other. What keeps the rounds apart is that one
host barrier, at least, stands between any two calls of which one could take the other's messages. -/
namespace Wf4.MessageRounds
open Exchanges

/-- The exchange functions. -/
inductive Exchange where
  | partialSets | influentialNodes | removeNodes | newEdges
  deriving DecidableEq, Repr

/-- The counters when the program starts. -/
def firstTag : Exchange → UInt32
  | .partialSets => 19602
  | .influentialNodes => 9801
  | .removeNodes => 39204
  | .newEdges => 79408

def nextTag (tag : UInt32) : UInt32 := tag + 1

def exchangePartialSets (round : ℕ) : List (Op Exchange) :=
  [.exchange ⟨.partialSets, round⟩, .bump .partialSets, .barrier]

/-- The counter is only moved on after the barrier. -/
def exchangeMostInfluentialNodes (round : ℕ) : List (Op Exchange) :=
  [.exchange ⟨.influentialNodes, round⟩, .barrier, .bump .influentialNodes]

def removeNodesFromRemotes (round : ℕ) : List (Op Exchange) :=
  [.exchange ⟨.removeNodes, round⟩, .bump .removeNodes, .barrier]

/-- There is no barrier. -/
def sendNewEdges (round : ℕ) : List (Op Exchange) :=
  [.exchange ⟨.newEdges, round⟩, .bump .newEdges]

def importGraph : List (Op Exchange) := [.barrier]

def calculateEdgeProbabilities : List (Op Exchange) := [.barrier]

def getRandomReverseReachableSets (epochs : UInt64) : List (Op Exchange) :=
  (List.range epochs.toNat).flatMap exchangePartialSets ++
    exchangePartialSets epochs.toNat ++ [.barrier]

def getInfluentialNodes (numNodes : UInt64) : List (Op Exchange) :=
  exchangeMostInfluentialNodes 0 ++ (List.range (numNodes - 1).toNat).flatMap fun i =>
    removeNodesFromRemotes i ++ exchangeMostInfluentialNodes (i + 1)

def cancelNodes : List (Op Exchange) := [.barrier]

def quiesceGraph : List (Op Exchange) := sendNewEdges 0 ++ sendNewEdges 1

/-- What `main` does on every host, as far as messages and barriers go. -/
def main (epochs k : UInt64) : List (Op Exchange) :=
  importGraph ++ [.barrier] ++ calculateEdgeProbabilities ++ getRandomReverseReachableSets epochs ++
    getInfluentialNodes k ++ cancelNodes ++ quiesceGraph

/-- The calls of each exchange. -/
def calls (epochs k : UInt64) : Exchange → ℕ
  | .partialSets => epochs.toNat + 1
  | .influentialNodes => (k - 1).toNat + 1
  | .removeNodes => (k - 1).toNat
  | .newEdges => 2

/-- The barriers before a call. -/
def phase (epochs k : UInt64) : Call Exchange → ℕ
  | ⟨.partialSets, r⟩ => r + 3
  | ⟨.influentialNodes, r⟩ => epochs.toNat + 2 * r + 5
  | ⟨.removeNodes, r⟩ => epochs.toNat + 2 * r + 6
  | ⟨.newEdges, _⟩ => epochs.toNat + 2 * (k - 1).toNat + 7

/-- The rounds each exchange has completed. -/
def counts (partialSets influentialNodes removeNodes newEdges : ℕ) : Exchange → ℕ
  | .partialSets => partialSets
  | .influentialNodes => influentialNodes
  | .removeNodes => removeNodes
  | .newEdges => newEdges

theorem mem_getRandomReverseReachableSets {epochs : UInt64} {c : Call Exchange}
    (hc : .exchange c ∈ getRandomReverseReachableSets epochs) :
    c.kind = .partialSets ∧ c.round < epochs.toNat + 1 := by
  rcases List.mem_append.mp hc with hc | hc
  · rcases List.mem_append.mp hc with hc | hc
    · obtain ⟨i, hi, hmem⟩ := List.mem_flatMap.mp hc
      have hi := List.mem_range.mp hi
      obtain rfl : c = ⟨.partialSets, i⟩ := by simpa [exchangePartialSets] using hmem
      exact ⟨rfl, Nat.lt_succ_of_lt hi⟩
    · obtain rfl : c = ⟨.partialSets, epochs.toNat⟩ := by simpa [exchangePartialSets] using hc
      exact ⟨rfl, Nat.lt_succ_self _⟩
  · simp at hc

theorem mem_getInfluentialNodes {k : UInt64} {c : Call Exchange}
    (hc : .exchange c ∈ getInfluentialNodes k) :
    c.kind = .influentialNodes ∧ c.round < (k - 1).toNat + 1 ∨
      c.kind = .removeNodes ∧ c.round < (k - 1).toNat := by
  rcases List.mem_append.mp hc with hc | hc
  · obtain rfl : c = ⟨.influentialNodes, 0⟩ := by simpa [exchangeMostInfluentialNodes] using hc
    exact Or.inl ⟨rfl, Nat.succ_pos _⟩
  · obtain ⟨i, hi, hmem⟩ := List.mem_flatMap.mp hc
    have hi := List.mem_range.mp hi
    rcases List.mem_append.mp hmem with hmem | hmem
    · obtain rfl : c = ⟨.removeNodes, i⟩ := by simpa [removeNodesFromRemotes] using hmem
      exact Or.inr ⟨rfl, hi⟩
    · obtain rfl : c = ⟨.influentialNodes, i + 1⟩ := by
        simpa [exchangeMostInfluentialNodes] using hmem
      exact Or.inl ⟨rfl, Nat.succ_lt_succ hi⟩

theorem mem_quiesceGraph {c : Call Exchange} (hc : .exchange c ∈ quiesceGraph) :
    c.kind = .newEdges ∧ c.round < 2 := by
  have hc : c = ⟨.newEdges, 0⟩ ∨ c = ⟨.newEdges, 1⟩ := by
    simpa [quiesceGraph, sendNewEdges] using hc
  rcases hc with rfl | rfl
  · exact ⟨rfl, Nat.zero_lt_two⟩
  · exact ⟨rfl, Nat.one_lt_two⟩

theorem round_lt_calls {epochs k : UInt64} {c : Call Exchange} (hc : .exchange c ∈ main epochs k) :
    c.round < calls epochs k c.kind := by
  simp only [main, List.mem_append] at hc
  rcases hc with (((((hc | hc) | hc) | hc) | hc) | hc) | hc
  · simp [importGraph] at hc
  · simp at hc
  · simp [calculateEdgeProbabilities] at hc
  · obtain ⟨hkind, hlt⟩ := mem_getRandomReverseReachableSets hc
    rwa [hkind]
  · rcases mem_getInfluentialNodes hc with ⟨hkind, hlt⟩ | ⟨hkind, hlt⟩
    · rwa [hkind]
    · rwa [hkind]
  · simp [cancelNodes] at hc
  · obtain ⟨hkind, hlt⟩ := mem_quiesceGraph hc
    rwa [hkind]

section Timed
variable {phase : Call Exchange → ℕ} {a i r e b : ℕ} {ops : List (Op Exchange)}

/-- Once its counter has moved on, a call does not come again. -/
theorem call_notMem {n : Exchange → ℕ} {f : Exchange}
    (hops : Timed phase (Function.update n f (n f + 1)) b ops) : .exchange ⟨f, n f⟩ ∉ ops := by
  intro hmem
  have hle := hops.le_round hmem
  rw [Function.update_self] at hle
  exact absurd hle (Nat.not_succ_le_self (n f))

theorem counts_partialSets : Function.update (counts a i r e) .partialSets (a + 1) =
    counts (a + 1) i r e := by
  funext f
  cases f <;> rfl

theorem counts_influentialNodes : Function.update (counts a i r e) .influentialNodes (i + 1) =
    counts a (i + 1) r e := by
  funext f
  cases f <;> rfl

theorem counts_removeNodes : Function.update (counts a i r e) .removeNodes (r + 1) =
    counts a i (r + 1) e := by
  funext f
  cases f <;> rfl

theorem counts_newEdges : Function.update (counts a i r e) .newEdges (e + 1) =
    counts a i r (e + 1) := by
  funext f
  cases f <;> rfl

theorem timed_exchangePartialSets (hp : phase ⟨.partialSets, a⟩ = b)
    (hops : Timed phase (counts (a + 1) i r e) (b + 1) ops) :
    Timed phase (counts a i r e) b (exchangePartialSets a ++ ops) := by
  rw [← counts_partialSets] at hops
  have hnew : .exchange ⟨.partialSets, a⟩ ∉ ops := call_notMem (f := .partialSets) hops
  exact ⟨rfl, hp, by simpa using hnew, hops⟩

theorem timed_exchangeMostInfluentialNodes (hp : phase ⟨.influentialNodes, i⟩ = b)
    (hops : Timed phase (counts a (i + 1) r e) (b + 1) ops) :
    Timed phase (counts a i r e) b (exchangeMostInfluentialNodes i ++ ops) := by
  rw [← counts_influentialNodes] at hops
  have hnew : .exchange ⟨.influentialNodes, i⟩ ∉ ops := call_notMem (f := .influentialNodes) hops
  exact ⟨rfl, hp, by simpa using hnew, hops⟩

theorem timed_removeNodesFromRemotes (hp : phase ⟨.removeNodes, r⟩ = b)
    (hops : Timed phase (counts a i (r + 1) e) (b + 1) ops) :
    Timed phase (counts a i r e) b (removeNodesFromRemotes r ++ ops) := by
  rw [← counts_removeNodes] at hops
  have hnew : .exchange ⟨.removeNodes, r⟩ ∉ ops := call_notMem (f := .removeNodes) hops
  exact ⟨rfl, hp, by simpa using hnew, hops⟩

theorem timed_sendNewEdges (hp : phase ⟨.newEdges, e⟩ = b)
    (hops : Timed phase (counts a i r (e + 1)) b ops) :
    Timed phase (counts a i r e) b (sendNewEdges e ++ ops) := by
  rw [← counts_newEdges] at hops
  have hnew : .exchange ⟨.newEdges, e⟩ ∉ ops := call_notMem (f := .newEdges) hops
  exact ⟨rfl, hp, by simpa using hnew, hops⟩

/-- The epochs run one phase after another. -/
theorem timed_epochs (m : ℕ) (hp : ∀ j < m, phase ⟨.partialSets, a + j⟩ = b + j)
    (hops : Timed phase (counts (a + m) i r e) (b + m) ops) :
    Timed phase (counts a i r e) b ((List.range' a m).flatMap exchangePartialSets ++ ops) := by
  induction m generalizing a b with
  | zero => exact hops
  | succ m ih =>
    rw [List.range'_succ, List.flatMap_cons, List.append_assoc]
    refine timed_exchangePartialSets (hp 0 (Nat.succ_pos m)) (ih (fun j hj => ?_) ?_)
    · have hnext := hp (j + 1) (Nat.succ_lt_succ hj)
      rwa [Nat.add_assoc, Nat.add_comm 1 j, Nat.add_assoc b 1 j, Nat.add_comm 1 j]
    · rwa [Nat.add_assoc, Nat.add_comm 1 m, Nat.add_assoc b 1 m, Nat.add_comm 1 m]

/-- So do the picks, each after a removal. -/
theorem timed_picks (m : ℕ) (hr : ∀ j < m, phase ⟨.removeNodes, r + j⟩ = b + 2 * j)
    (hi : ∀ j < m, phase ⟨.influentialNodes, r + j + 1⟩ = b + 2 * j + 1)
    (hops : Timed phase (counts a (r + m + 1) (r + m) e) (b + 2 * m) ops) :
    Timed phase (counts a (r + 1) r e) b ((List.range' r m).flatMap (fun i =>
      removeNodesFromRemotes i ++ exchangeMostInfluentialNodes (i + 1)) ++ ops) := by
  induction m generalizing r b with
  | zero => exact hops
  | succ m ih =>
    rw [List.range'_succ, List.flatMap_cons, List.append_assoc, List.append_assoc]
    refine timed_removeNodesFromRemotes (hr 0 (Nat.succ_pos m))
      (timed_exchangeMostInfluentialNodes (hi 0 (Nat.succ_pos m)) (ih (fun j hj => ?_)
        (fun j hj => ?_) ?_))
    · have hnext := hr (j + 1) (Nat.succ_lt_succ hj)
      rw [show r + 1 + j = r + (j + 1) by omega, hnext]
      omega
    · have hnext := hi (j + 1) (Nat.succ_lt_succ hj)
      rw [show r + 1 + j = r + (j + 1) by omega, hnext]
      omega
    · rw [show r + 1 + m = r + (m + 1) by omega, show b + 1 + 1 + 2 * m = b + 2 * (m + 1) by omega]
      exact hops

end Timed

theorem timed_main (epochs k : UInt64) :
    Timed (phase epochs k) (fun _ => 0) 0 (main epochs k) := by
  have hzero : (fun _ : Exchange => 0) = counts 0 0 0 0 := by
    funext f
    cases f <;> rfl
  simp only [main, getRandomReverseReachableSets, getInfluentialNodes, quiesceGraph,
    List.append_assoc, List.range_eq_range', hzero]
  show Timed (phase epochs k) (counts 0 0 0 0) 3 _
  refine timed_epochs _ (fun j _ => by simp [phase, Nat.add_comm]) ?_
  rw [Nat.zero_add]
  refine timed_exchangePartialSets (Nat.add_comm _ _) ?_
  show Timed (phase epochs k) _ (3 + epochs.toNat + 1 + 1) _
  refine timed_exchangeMostInfluentialNodes ?_ (timed_picks _ (fun j _ => ?_) (fun j _ => ?_) ?_)
  · simp only [phase]
    omega
  · simp only [phase]
    omega
  · simp only [phase]
    omega
  rw [Nat.zero_add]
  show Timed (phase epochs k) _ (_ + 1) _
  refine timed_sendNewEdges ?_ ?_
  · simp only [phase]
    omega
  rw [← List.append_nil (sendNewEdges 1)]
  refine timed_sendNewEdges ?_ trivial
  simp only [phase]
  omega

/-- Two calls in one phase: only the two of `SendNewEdges`, whose tags differ. -/
theorem phase_apart {epochs k : UInt64} {c d : Call Exchange} (hc : .exchange c ∈ main epochs k)
    (hd : .exchange d ∈ main epochs k) (hphase : phase epochs k c = phase epochs k d)
    (htag : c.tag nextTag firstTag = d.tag nextTag firstTag) : c = d := by
  have hc := round_lt_calls hc
  have hd := round_lt_calls hd
  obtain ⟨f, r⟩ := c
  obtain ⟨f', r'⟩ := d
  cases f <;> cases f' <;> simp only [phase, calls] at hc hd hphase
  case newEdges.newEdges =>
    interval_cases r <;> interval_cases r'
    · rfl
    · exact absurd htag (by decide)
    · exact absurd htag (by decide)
    · rfl
  case partialSets.partialSets => rw [show r = r' by omega]
  case influentialNodes.influentialNodes => rw [show r = r' by omega]
  case removeNodes.removeNodes => rw [show r = r' by omega]
  all_goals omega

def mainSchedule (epochs k : UInt64) : Schedule Exchange nextTag firstTag where
  ops := main epochs k
  phase := phase epochs k
  timed := timed_main epochs k
  apart := phase_apart

/-- In every run of `main` on any number of hosts, a receive can only take a message that another host
sent in the same call of the same exchange; a call that has made all its receives has stored one
message from each other host; and the run can always go on until every host is through. -/
theorem main_exchanges {H : ℕ} (epochs k : UInt64) {w : World H Exchange UInt32}
    (hw : Steps nextTag (start (main epochs k) firstTag) w) (h : Fin H) :
    (∀ c l m, (w.hosts h).rest = .receive c :: l → m ∈ w.flight → m.dst = h →
      m.tag = (w.hosts h).counter c.kind → m.call = c ∧ m.src ≠ h) ∧
    (∀ c, .exchange c ∈ main epochs k → .receive c ∉ (w.hosts h).rest → ∀ p,
      (w.hosts h).stored c p =
        if p = h then [] else [callMessage nextTag firstTag c p h]) ∧
    ∃ w', Steps nextTag w w' ∧ ∀ q, (w'.hosts q).rest = [] := by
  have hinv : Inv (mainSchedule epochs k) w := inv_of_steps hw
  refine ⟨fun c l m hrest hm hdst htag => ?_, fun c hc hdone p => ?_, hinv.exists_finished⟩
  · have hmatched := hinv.matched hrest hm hdst htag
    have hne := (hinv.flight_call hm).2.1
    rw [hdst] at hne
    exact ⟨congrArg Message.call hmatched, hne⟩
  · exact (mainSchedule epochs k).stored_eq hw hc hdone p

/-- Two hosts, three epochs and two picks. -/
theorem main_exchanges_two : ∃ w', Steps nextTag (start (H := 2) (main 3 2) firstTag) w' ∧
    ∀ q, (w'.hosts q).rest = [] :=
  (main_exchanges 3 2 .refl 0).2.2

end Wf4.MessageRounds
