import Mathlib.Algebra.Order.BigOperators.Group.Finset
import Mathlib.Data.Multiset.Count
import Mathlib.Logic.Relation
import Mathlib.Tactic

/-! All-to-all exchanges of tagged messages. Every host runs the same list of exchanges, counter
steps and barriers; messages are delivered in any order, and a receive takes any message whose tag is
the receiver's own counter for that kind of exchange. -/
namespace Exchanges
open Relation
variable {H : ℕ} {F T : Type*}

/-- A call of an exchange: its kind, and how many calls of that kind came before. -/
structure Call (F : Type*) where
  kind : F
  round : ℕ
  deriving DecidableEq

inductive Op (F : Type*) where
  | exchange (c : Call F)
  | bump (f : F)
  | barrier
  deriving DecidableEq

inductive Instr (H : ℕ) (F : Type*) where
  | send (c : Call F) (dst : Fin H)
  | receive (c : Call F)
  | bump (f : F)
  | barrier
  deriving DecidableEq

/-- An exchange sends to every other host and then receives as often. -/
def Op.expand (h : Fin H) : Op F → List (Instr H F)
  | .exchange c => ((List.finRange H).filter (· ≠ h)).map (.send c) ++
      List.replicate (H - 1) (.receive c)
  | .bump f => [.bump f]
  | .barrier => [.barrier]

def program (ops : List (Op F)) (h : Fin H) : List (Instr H F) := ops.flatMap (Op.expand h)

/-- A message, with the call it was sent in, which no receiver looks at. -/
structure Message (H : ℕ) (F T : Type*) where
  tag : T
  src : Fin H
  dst : Fin H
  call : Call F
  deriving DecidableEq

structure Host (H : ℕ) (F T : Type*) where
  rest : List (Instr H F)
  counter : F → T
  passed : ℕ
  stored : Call F → Fin H → List (Message H F T)

structure World (H : ℕ) (F T : Type*) where
  hosts : Fin H → Host H F T
  flight : Multiset (Message H F T)

/-- The barriers a host has passed or waits at. -/
def Host.arrived [DecidableEq F] (s : Host H F T) : ℕ :=
  s.passed + if s.rest.head? = some .barrier then 1 else 0

theorem Host.passed_le_arrived [DecidableEq F] (s : Host H F T) : s.passed ≤ s.arrived := Nat.le_add_right ..

theorem Host.arrived_of_ne [DecidableEq F] {s : Host H F T} {i : Instr H F}
    {l : List (Instr H F)} (hrest : s.rest = i :: l)
    (hi : i ≠ .barrier) : s.arrived = s.passed := by
  rw [arrived, hrest]
  simp [hi]

/-- Keep a message in the slot of its sender. -/
def Host.store [DecidableEq F] (s : Host H F T) (c : Call F) (m : Message H F T) : Host H F T :=
  { s with
    stored := Function.update s.stored c
      (Function.update (s.stored c) m.src (s.stored c m.src ++ [m])) }

theorem Host.store_stored [DecidableEq F] (s : Host H F T) (c d : Call F) (m : Message H F T)
    (p : Fin H) : (s.store c m).stored d p =
      if d = c ∧ p = m.src then s.stored d p ++ [m] else s.stored d p := by
  by_cases hd : d = c
  · subst hd
    by_cases hp : p = m.src
    · simp [store, hp]
    · simp [store, hp]
  · simp [store, hd]

theorem Host.sum_store [DecidableEq F] (s : Host H F T) (c d : Call F) (m : Message H F T) :
    ∑ p, ((s.store c m).stored d p).length =
      ∑ p, (s.stored d p).length + if d = c then 1 else 0 := by
  have hlen (p : Fin H) : ((s.store c m).stored d p).length =
      (s.stored d p).length + if p = m.src then if d = c then 1 else 0 else 0 := by
    rw [store_stored]
    by_cases hd : d = c
    · by_cases hp : p = m.src
      · simp [hd, hp]
      · simp [hp]
    · simp [hd]
  simp [hlen, Finset.sum_add_distrib]

def World.setHost (w : World H F T) (h : Fin H) (s : Host H F T) : World H F T :=
  { w with hosts := Function.update w.hosts h s }

@[simp] theorem hosts_setHost_self (w : World H F T) (h : Fin H) (s : Host H F T) :
    (w.setHost h s).hosts h = s := Function.update_self ..

theorem hosts_setHost_of_ne (w : World H F T) {h q : Fin H} (s : Host H F T) (hq : q ≠ h) :
    (w.setHost h s).hosts q = w.hosts q := Function.update_of_ne hq ..

section Semantics
variable [DecidableEq F] [DecidableEq T] (next : T → T)

/-- The next instruction of one host. -/
inductive Step (w : World H F T) : World H F T → Prop
  | send {h q : Fin H} {c : Call F} {l : List (Instr H F)}
      (hrest : (w.hosts h).rest = .send c q :: l) :
      Step w { w.setHost h { w.hosts h with rest := l } with
        flight := ⟨(w.hosts h).counter c.kind, h, q, c⟩ ::ₘ w.flight }
  | receive {h : Fin H} {c : Call F} {l : List (Instr H F)} {m : Message H F T}
      (hrest : (w.hosts h).rest = .receive c :: l) (hm : m ∈ w.flight) (hdst : m.dst = h)
      (htag : m.tag = (w.hosts h).counter c.kind) :
      Step w { w.setHost h ({ w.hosts h with rest := l }.store c m) with
        flight := w.flight.erase m }
  | bump {h : Fin H} {f : F} {l : List (Instr H F)} (hrest : (w.hosts h).rest = .bump f :: l) :
      Step w (w.setHost h { w.hosts h with
        rest := l
        counter := Function.update (w.hosts h).counter f (next ((w.hosts h).counter f)) })
  | barrier {h : Fin H} {l : List (Instr H F)} (hrest : (w.hosts h).rest = .barrier :: l)
      (hall : ∀ q, (w.hosts h).passed < (w.hosts q).arrived) :
      Step w (w.setHost h { w.hosts h with rest := l, passed := (w.hosts h).passed + 1 })

abbrev Steps : World H F T → World H F T → Prop := ReflTransGen (Step next)

end Semantics

/-- All hosts are at the start of the program. -/
def start (ops : List (Op F)) (base : F → T) : World H F T :=
  ⟨fun h => ⟨program ops h, base, 0, fun _ _ => []⟩, 0⟩

/-- The tag of a call, when every earlier call of its kind has moved the counter on. -/
def Call.tag (next : T → T) (base : F → T) (c : Call F) : T := next^[c.round] (base c.kind)

section Schedule
variable [DecidableEq F]

/-- Each exchange runs once, in the round that the counter steps before it say, and in its phase:
the number of barriers before it. -/
def Timed (phase : Call F → ℕ) : (F → ℕ) → ℕ → List (Op F) → Prop
  | _, _, [] => True
  | n, b, .exchange c :: ops =>
    c.round = n c.kind ∧ phase c = b ∧ .exchange c ∉ ops ∧ Timed phase n b ops
  | n, b, .bump f :: ops => Timed phase (Function.update n f (n f + 1)) b ops
  | n, b, .barrier :: ops => Timed phase n (b + 1) ops

/-- The same of a host's instructions. -/
def Fits (phase : Call F → ℕ) : (F → ℕ) → ℕ → List (Instr H F) → Prop
  | _, _, [] => True
  | n, b, .send c _ :: l => c.round = n c.kind ∧ phase c = b ∧ Fits phase n b l
  | n, b, .receive c :: l => c.round = n c.kind ∧ phase c = b ∧ Fits phase n b l
  | n, b, .bump f :: l => Fits phase (Function.update n f (n f + 1)) b l
  | n, b, .barrier :: l => Fits phase n (b + 1) l

/-- A program whose exchanges do not mix: calls with no barrier between them have different tags. -/
structure Schedule (F : Type*) [DecidableEq F] {T : Type*} (next : T → T) (base : F → T) where
  ops : List (Op F)
  phase : Call F → ℕ
  timed : Timed phase (fun _ => 0) 0 ops
  apart : ∀ {c d}, .exchange c ∈ ops → .exchange d ∈ ops → phase c = phase d →
    c.tag next base = d.tag next base → c = d

variable {phase : Call F → ℕ} {n : F → ℕ} {b : ℕ} {c : Call F} {l : List (Instr H F)}

theorem fits_sends (hc : c.round = n c.kind) (hb : phase c = b) (hl : Fits phase n b l)
    (dsts : List (Fin H)) : Fits phase n b (dsts.map (.send c) ++ l) := by
  induction dsts with
  | nil => exact hl
  | cons q dsts ih => exact ⟨hc, hb, ih⟩

theorem fits_receives (hc : c.round = n c.kind) (hb : phase c = b) (hl : Fits phase n b l)
    (k : ℕ) : Fits phase n b (List.replicate k (.receive c) ++ l) := by
  induction k with
  | zero => exact hl
  | succ k ih => exact ⟨hc, hb, ih⟩

theorem Timed.fits {ops : List (Op F)} (h : Fin H) (ht : Timed phase n b ops) :
    Fits phase n b (program ops h) := by
  induction ops generalizing n b with
  | nil => trivial
  | cons op ops ih =>
    cases op with
    | exchange c =>
      obtain ⟨hc, hb, _, hops⟩ := ht
      show Fits phase n b ((_ ++ _) ++ program ops h)
      rw [List.append_assoc]
      exact fits_sends hc hb (fits_receives hc hb (ih hops) _) _
    | bump f => exact ih (n := Function.update n f (n f + 1)) ht
    | barrier => exact ih (b := b + 1) ht

/-- What is still to run belongs to no earlier round. -/
theorem Timed.le_round {ops : List (Op F)} (ht : Timed phase n b ops) (hc : .exchange c ∈ ops) :
    n c.kind ≤ c.round := by
  induction ops generalizing n b with
  | nil => simp at hc
  | cons op ops ih =>
    cases op with
    | exchange d =>
      rcases List.mem_cons.mp hc with heq | hmem
      · obtain rfl := Op.exchange.inj heq
        exact ht.1.ge
      · exact ih ht.2.2.2 hmem
    | bump f =>
      have hmem : .exchange c ∈ ops := by simpa using hc
      have hle := ih (n := Function.update n f (n f + 1)) ht hmem
      by_cases hf : c.kind = f
      · rw [hf, Function.update_self] at hle
        rw [hf]
        exact Nat.le_of_succ_le hle
      · rwa [Function.update_of_ne hf] at hle
    | barrier =>
      have hmem : .exchange c ∈ ops := by simpa using hc
      exact ih (b := b + 1) ht hmem

theorem Timed.once {ops : List (Op F)} (ht : Timed phase n b ops) (c : Call F) :
    ops.count (.exchange c) ≤ 1 := by
  induction ops generalizing n b with
  | nil => exact Nat.zero_le 1
  | cons op ops ih =>
    rw [List.count_cons]
    cases op with
    | exchange d =>
      obtain ⟨_, _, hnew, hops⟩ := ht
      by_cases hd : d = c
      · rw [List.count_eq_zero.mpr (hd ▸ hnew), if_pos (by simp [hd])]
      · rw [if_neg (by simp [hd])]
        exact ih hops
    | bump f => exact ih (n := Function.update n f (n f + 1)) ht
    | barrier => exact ih (b := b + 1) ht

/-- What is left to receive belongs to no earlier phase. -/
theorem Fits.le_phase (hl : Fits phase n b l) (hc : .receive c ∈ l) : b ≤ phase c := by
  induction l generalizing n b with
  | nil => simp at hc
  | cons i l ih =>
    cases i with
    | send d q =>
      have hmem : .receive c ∈ l := by simpa using hc
      exact ih hl.2.2 hmem
    | receive d =>
      rcases List.mem_cons.mp hc with heq | hmem
      · rw [Instr.receive.injEq] at heq
        rw [heq]
        exact hl.2.1.ge
      · exact ih hl.2.2 hmem
    | bump f =>
      have hmem : .receive c ∈ l := by simpa using hc
      exact ih (n := Function.update n f (n f + 1)) hl hmem
    | barrier =>
      have hmem : .receive c ∈ l := by simpa using hc
      exact Nat.le_of_succ_le (ih (b := b + 1) hl hmem)

theorem Schedule.once {next : T → T} {base : F → T} (S : Schedule F next base) (c : Call F) :
    S.ops.count (.exchange c) ≤ 1 := S.timed.once c

theorem count_send_expand (h q : Fin H) (c : Call F) (op : Op F) :
    (op.expand h).count (.send c q) = if q ≠ h ∧ op = .exchange c then 1 else 0 := by
  cases op with
  | exchange d =>
    have hinj : Function.Injective (Instr.send (H := H) d) := fun p r he => (Instr.send.inj he).2
    have hrec : (List.replicate (H - 1) (Instr.receive d)).count (.send c q) = 0 :=
      List.count_eq_zero.mpr fun hmem => by simpa using List.eq_of_mem_replicate hmem
    rw [Op.expand, List.count_append, hrec, Nat.add_zero]
    by_cases hd : d = c
    · subst hd
      rw [List.count_map_of_injective _ _ hinj,
        ((List.nodup_finRange H).filter _).count]
      simp
    · have hsend : .send c q ∉ ((List.finRange H).filter (· ≠ h)).map (Instr.send d) := by
        intro hmem
        obtain ⟨_, _, he⟩ := List.mem_map.mp hmem
        exact hd (Instr.send.inj he).1
      rw [List.count_eq_zero.mpr hsend, if_neg fun he => hd (Op.exchange.inj he.2)]
  | bump f => simp [Op.expand]
  | barrier => simp [Op.expand]

theorem count_receive_expand (h : Fin H) (c : Call F) (op : Op F) :
    (op.expand h).count (.receive c) = if op = .exchange c then H - 1 else 0 := by
  cases op with
  | exchange d =>
    have hsend : (((List.finRange H).filter (· ≠ h)).map (Instr.send d)).count (.receive c) = 0 :=
      List.count_eq_zero.mpr fun hmem => by
        obtain ⟨_, _, he⟩ := List.mem_map.mp hmem
        simp at he
    rw [Op.expand, List.count_append, hsend, Nat.zero_add, List.count_replicate]
    simp
  | bump f => simp [Op.expand]
  | barrier => simp [Op.expand]

theorem count_send (h q : Fin H) (c : Call F) (ops : List (Op F)) :
    (program ops h).count (.send c q) = if q ≠ h then ops.count (.exchange c) else 0 := by
  induction ops with
  | nil => simp [program]
  | cons op ops ih =>
    rw [program, List.flatMap_cons, List.count_append, count_send_expand, ← program, ih,
      List.count_cons]
    by_cases hq : q = h
    · simp [hq]
    · simp [hq, Nat.add_comm]

theorem count_receive (h : Fin H) (c : Call F) (ops : List (Op F)) :
    (program ops h).count (.receive c) = ops.count (.exchange c) * (H - 1) := by
  induction ops with
  | nil => simp [program]
  | cons op ops ih =>
    rw [program, List.flatMap_cons, List.count_append, count_receive_expand, ← program, ih,
      List.count_cons]
    by_cases hop : op = .exchange c
    · simp [hop, Nat.add_mul, Nat.add_comm]
    · simp [hop]

end Schedule

end Exchanges
