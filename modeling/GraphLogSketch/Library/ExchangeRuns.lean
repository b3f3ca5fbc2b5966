import GraphLogSketch.Library.Exchanges

/-! Runs of a schedule: every receive takes a message of its own call, every call stores one message
from each other host, and no host waits for ever. -/
namespace Exchanges
variable {H : ℕ} {F T : Type*}

section Invariant
variable [DecidableEq F] [DecidableEq T] {next : T → T} {base : F → T}

/-- A host in the middle of the program, with its counters and barriers where the program has them. -/
structure Host.Ok (S : Schedule F next base) (h : Fin H) (s : Host H F T) : Prop where
  rest : s.rest <:+ program S.ops h
  fits : ∃ n : F → ℕ, (∀ f, s.counter f = next^[n f] (base f)) ∧ Fits S.phase n s.passed s.rest
  passed : s.passed + s.rest.count .barrier = (program S.ops h).count .barrier

/-- The message one host sends another in a call. -/
def callMessage (next : T → T) (base : F → T) (c : Call F) (p q : Fin H) : Message H F T :=
  ⟨c.tag next base, p, q, c⟩

/-- No host is a barrier ahead of one that has not reached it, every message of a call is to be sent,
under way or stored, and what a call has stored was sent in it. -/
structure Inv (S : Schedule F next base) (w : World H F T) : Prop where
  ok : ∀ h, (w.hosts h).Ok S h
  inStep : ∀ p q, (w.hosts p).passed ≤ (w.hosts q).arrived
  flight : ∀ m ∈ w.flight,
    m = callMessage next base m.call m.src m.dst ∧ S.phase m.call ≤ (w.hosts m.src).passed
  sent : ∀ c p q, w.flight.count (callMessage next base c p q) +
    ((w.hosts q).stored c p).length + (w.hosts p).rest.count (.send c q) =
      (program S.ops p).count (.send c q)
  got : ∀ c q, ∑ p, ((w.hosts q).stored c p).length + (w.hosts q).rest.count (.receive c) =
    (program S.ops q).count (.receive c)
  stored : ∀ q c p, ∀ m ∈ (w.hosts q).stored c p, m = callMessage next base c p q

variable {S : Schedule F next base} {w w' : World H F T} {h : Fin H} {c : Call F}
  {l : List (Instr H F)}

theorem inv_start (S : Schedule F next base) : Inv S (start (H := H) S.ops base) where
  ok h := ⟨List.suffix_refl _, ⟨fun _ => 0, fun _ => rfl, S.timed.fits h⟩, Nat.zero_add _⟩
  inStep _ _ := Nat.zero_le _
  flight m hm := by simp [start] at hm
  sent c p q := by simp [start]
  got c q := by simp [start]
  stored q c p m hm := by simp [start] at hm

/-- A host that moves on without passing a barrier stays in step. -/
theorem Inv.inStep_setHost (hw : Inv S w) {s : Host H F T} (hs : s.passed = (w.hosts h).passed)
    (hh : (w.hosts h).arrived ≤ s.arrived) (p q : Fin H) :
    ((w.setHost h s).hosts p).passed ≤ ((w.setHost h s).hosts q).arrived := by
  have hp : ((w.setHost h s).hosts p).passed = (w.hosts p).passed := by
    by_cases hph : p = h
    · rw [hph, hosts_setHost_self, hs]
    · rw [hosts_setHost_of_ne w s hph]
  rw [hp]
  by_cases hqh : q = h
  · rw [hqh, hosts_setHost_self]
    exact (hw.inStep p h).trans hh
  · rw [hosts_setHost_of_ne w s hqh]
    exact hw.inStep p q

omit [DecidableEq F] [DecidableEq T] in
theorem sum_others (h : Fin H) : ∑ p, (if p ≠ h then 1 else 0) = H - 1 := by
  rw [Finset.sum_boole]
  simp [Finset.filter_ne', Finset.card_erase_of_mem]

/-- All messages of an earlier phase have been taken by the time a host goes on to the next. -/
theorem Inv.stored_length (hw : Inv S w) (hc : .exchange c ∈ S.ops)
    (hdone : .receive c ∉ (w.hosts h).rest) (p : Fin H) :
    ((w.hosts h).stored c p).length = if p ≠ h then 1 else 0 := by
  have hone : S.ops.count (.exchange c) = 1 :=
    Nat.le_antisymm (S.once c) (List.count_pos_iff.mpr hc)
  have hle (p : Fin H) : ((w.hosts h).stored c p).length ≤ if p ≠ h then 1 else 0 := by
    have hsent := hw.sent c p h
    rw [count_send, hone] at hsent
    by_cases hp : p = h
    · subst hp
      rw [if_neg (by simp)] at hsent
      omega
    · rw [if_pos (Ne.symm hp)] at hsent
      rw [if_pos hp]
      omega
  have hgot := hw.got c h
  rw [List.count_eq_zero.mpr hdone, count_receive, hone, Nat.one_mul, Nat.add_zero] at hgot
  have hsum : ∑ p, ((w.hosts h).stored c p).length = ∑ p, if p ≠ h then 1 else 0 := by
    rw [hgot, sum_others]
  exact (Finset.sum_eq_sum_iff_of_le fun p _ => hle p).mp hsum p (Finset.mem_univ p)

omit [DecidableEq T] in
theorem Host.Ok.exchange_mem {s : Host H F T} (hs : s.Ok S h) (hc : .receive c ∈ s.rest) :
    .exchange c ∈ S.ops := by
  have hin := List.count_pos_iff.mpr (hs.rest.mem hc)
  rw [count_receive] at hin
  exact List.count_pos_iff.mp (Nat.pos_of_mul_pos_right hin)

/-- What is under way was sent in a call of the program and is not stored. -/
theorem Inv.flight_call (hw : Inv S w) {m : Message H F T} (hm : m ∈ w.flight) :
    .exchange m.call ∈ S.ops ∧ m.src ≠ m.dst ∧ ((w.hosts m.dst).stored m.call m.src).length = 0 := by
  have hcount : 0 < w.flight.count (callMessage next base m.call m.src m.dst) := by
    rw [← (hw.flight m hm).1]
    exact Multiset.count_pos.mpr hm
  have hsent := hw.sent m.call m.src m.dst
  have honce := S.once m.call
  rw [count_send] at hsent
  split_ifs at hsent with hne
  · exact ⟨List.count_pos_iff.mp (by omega), hne.symm, by omega⟩
  · omega

/-- The message taken by a receive was sent in the same call. -/
theorem Inv.matched (hw : Inv S w) (hrest : (w.hosts h).rest = .receive c :: l)
    {m : Message H F T} (hm : m ∈ w.flight) (hdst : m.dst = h)
    (htag : m.tag = (w.hosts h).counter c.kind) : m = callMessage next base c m.src h := by
  obtain ⟨hcall, hphase⟩ := hw.flight m hm
  obtain ⟨hmem, hne, hzero⟩ := hw.flight_call hm
  rw [hdst] at hcall hne hzero
  obtain ⟨n, hn, hfits⟩ := (hw.ok h).fits
  have hlater := hfits.le_phase (c := m.call)
  rw [hrest] at hfits
  obtain ⟨hround, hb, _⟩ := hfits
  have hsrc : (w.hosts m.src).passed ≤ (w.hosts h).passed := by
    rw [← Host.arrived_of_ne hrest (by simp)]
    exact hw.inStep m.src h
  have heq : m.call = c := by
    rcases Nat.lt_or_eq_of_le (hphase.trans (hsrc.trans hb.ge)) with hlt | heq
    · have hdone : .receive m.call ∉ (w.hosts h).rest := fun hr => by
        have hle := hlater hr
        omega
      have hlen := hw.stored_length hmem hdone m.src
      rw [if_pos hne, hzero] at hlen
      exact absurd hlen (by simp)
    · have hc := (hw.ok h).exchange_mem (hrest ▸ List.mem_cons_self)
      apply S.apart hmem hc heq
      rw [hcall, hn, ← hround] at htag
      exact htag
  rw [heq] at hcall
  exact hcall

omit [DecidableEq T] in
theorem Host.Ok.tail {s : Host H F T} {i : Instr H F} (hs : s.Ok S h) (hrest : s.rest = i :: l) :
    l <:+ program S.ops h := (List.suffix_cons i l).trans (hrest ▸ hs.rest)

section SetHost
variable {s : Host H F T}

omit [DecidableEq T] in
theorem ok_setHost (hw : ∀ r, (w.hosts r).Ok S r) (hs : s.Ok S h) (r : Fin H) :
    ((w.setHost h s).hosts r).Ok S r := by
  by_cases hr : r = h
  · subst hr
    rwa [hosts_setHost_self]
  · rw [hosts_setHost_of_ne w s hr]
    exact hw r

omit [DecidableEq F] [DecidableEq T] in
theorem passed_setHost (hs : (w.hosts h).passed ≤ s.passed) (r : Fin H) :
    (w.hosts r).passed ≤ ((w.setHost h s).hosts r).passed := by
  by_cases hr : r = h
  · rwa [hr, hosts_setHost_self]
  · rw [hosts_setHost_of_ne w s hr]

omit [DecidableEq F] [DecidableEq T] in
theorem stored_setHost (hs : s.stored = (w.hosts h).stored) (r : Fin H) :
    ((w.setHost h s).hosts r).stored = (w.hosts r).stored := by
  by_cases hr : r = h
  · rwa [hr, hosts_setHost_self]
  · rw [hosts_setHost_of_ne w s hr]

omit [DecidableEq T] in
theorem count_setHost {i : Instr H F} (hrest : (w.hosts h).rest = i :: s.rest) (r : Fin H)
    (j : Instr H F) : (w.hosts r).rest.count j =
      ((w.setHost h s).hosts r).rest.count j + if r = h ∧ i = j then 1 else 0 := by
  by_cases hr : r = h
  · subst hr
    rw [hosts_setHost_self, hrest, List.count_cons]
    simp
  · rw [hosts_setHost_of_ne w s hr, if_neg fun hj => hr hj.1, Nat.add_zero]

end SetHost

theorem Inv.send (hw : Inv S w) {q : Fin H} (hrest : (w.hosts h).rest = .send c q :: l) :
    Inv S { w.setHost h { w.hosts h with rest := l } with
      flight := ⟨(w.hosts h).counter c.kind, h, q, c⟩ ::ₘ w.flight } := by
  obtain ⟨n, hn, hfits⟩ := (hw.ok h).fits
  rw [hrest] at hfits
  obtain ⟨hround, hb, hl⟩ := hfits
  have hmsg : ⟨(w.hosts h).counter c.kind, h, q, c⟩ = callMessage next base c h q := by
    rw [hn, ← hround]
    rfl
  set s : Host H F T := { w.hosts h with rest := l } with hdef
  have hs : s.Ok S h := {
    rest := (hw.ok h).tail hrest
    fits := ⟨n, hn, hl⟩
    passed := by
      have hpassed := (hw.ok h).passed
      rw [hrest, List.count_cons] at hpassed
      simpa using hpassed }
  have hpassed := passed_setHost (w := w) (s := s) (h := h) le_rfl
  have hstored := stored_setHost (w := w) (s := s) (h := h) rfl
  have hcount := count_setHost (w := w) (s := s) hrest
  rw [hmsg]
  constructor
  case ok => exact ok_setHost hw.ok hs
  case inStep =>
    have harrived : (w.hosts h).arrived = (w.hosts h).passed :=
      Host.arrived_of_ne hrest (by simp)
    exact hw.inStep_setHost rfl (harrived.trans_le s.passed_le_arrived)
  case flight =>
    intro m hm
    rcases Multiset.mem_cons.mp hm with rfl | hm
    · exact ⟨rfl, hb.le.trans (hpassed h)⟩
    · exact ⟨(hw.flight m hm).1, (hw.flight m hm).2.trans (hpassed m.src)⟩
  case sent =>
    intro d p r
    have hold := hw.sent d p r
    rw [hcount p (.send d r)] at hold
    rw [← hold, Multiset.count_cons, hstored]
    have hiff : callMessage next base d p r = callMessage next base c h q ↔
        p = h ∧ Instr.send c q = .send d r := by
      simp [callMessage]
      tauto
    simp only [hiff]
    omega
  case got =>
    intro d r
    have hold := hw.got d r
    rw [hcount r (.receive d), if_neg (by simp), Nat.add_zero] at hold
    rw [← hold, hstored]
  case stored =>
    intro r d p m hm
    rw [hstored] at hm
    exact hw.stored r d p m hm

theorem Inv.receive (hw : Inv S w) {m : Message H F T} (hrest : (w.hosts h).rest = .receive c :: l)
    (hm : m ∈ w.flight) (hdst : m.dst = h) (htag : m.tag = (w.hosts h).counter c.kind) :
    Inv S { w.setHost h ({ w.hosts h with rest := l }.store c m) with
      flight := w.flight.erase m } := by
  have hmatch := hw.matched hrest hm hdst htag
  obtain ⟨n, hn, hfits⟩ := (hw.ok h).fits
  rw [hrest] at hfits
  set s : Host H F T := Host.store { w.hosts h with rest := l } c m with hdef
  have hs : s.Ok S h := {
    rest := (hw.ok h).tail hrest
    fits := ⟨n, hn, hfits.2.2⟩
    passed := by
      have hpassed := (hw.ok h).passed
      rw [hrest, List.count_cons, if_neg (by simp)] at hpassed
      exact hpassed }
  have hpassed := passed_setHost (w := w) (s := s) (h := h) le_rfl
  have hcount := count_setHost (w := w) (s := s) hrest
  have hstored (r : Fin H) (d : Call F) (p : Fin H) : ((w.setHost h s).hosts r).stored d p =
      if r = h ∧ d = c ∧ p = m.src then (w.hosts r).stored d p ++ [m]
      else (w.hosts r).stored d p := by
    by_cases hr : r = h
    · subst hr
      rw [hosts_setHost_self, hdef, Host.store_stored]
      simp
    · rw [hosts_setHost_of_ne w s hr, if_neg fun hall => hr hall.1]
  constructor
  case ok => exact ok_setHost hw.ok hs
  case inStep =>
    have harrived : (w.hosts h).arrived = (w.hosts h).passed :=
      Host.arrived_of_ne hrest (by simp)
    exact hw.inStep_setHost rfl (harrived.trans_le s.passed_le_arrived)
  case flight =>
    intro m' hm'
    have hold := hw.flight m' (Multiset.mem_of_mem_erase hm')
    exact ⟨hold.1, hold.2.trans (hpassed m'.src)⟩
  case sent =>
    intro d p r
    have hold := hw.sent d p r
    rw [hcount p (.send d r), if_neg (by simp), Nat.add_zero] at hold
    show _ + (((w.setHost h s).hosts r).stored d p).length +
      ((w.setHost h s).hosts p).rest.count (.send d r) = _
    rw [← hold, hstored]
    split_ifs with hall
    · obtain ⟨rfl, rfl, rfl⟩ := hall
      rw [← hmatch, List.length_append, Multiset.count_erase_self, List.length_singleton]
      have hpos := Multiset.count_pos.mpr hm
      omega
    · rw [Multiset.count_erase_of_ne]
      intro heq
      rw [hmatch, callMessage, callMessage, Message.mk.injEq] at heq
      exact hall ⟨heq.2.2.1, heq.2.2.2, heq.2.1⟩
  case got =>
    intro d r
    have hold := hw.got d r
    rw [hcount r (.receive d)] at hold
    show ∑ p, (((w.setHost h s).hosts r).stored d p).length +
      ((w.setHost h s).hosts r).rest.count (.receive d) = _
    rw [← hold]
    by_cases hr : r = h
    · subst hr
      rw [hosts_setHost_self, hdef, Host.sum_store]
      simp [eq_comm]
      omega
    · rw [hosts_setHost_of_ne w s hr, if_neg fun hall => hr hall.1, Nat.add_zero]
  case stored =>
    intro r d p m' hm'
    rw [hstored] at hm'
    split_ifs at hm' with hall
    · obtain ⟨rfl, rfl, rfl⟩ := hall
      rcases List.mem_append.mp hm' with hkept | hnew
      · exact hw.stored r d _ m' hkept
      · obtain rfl := List.mem_singleton.mp hnew
        exact hmatch
    · exact hw.stored r d p m' hm'

/-- An instruction that neither sends nor receives leaves the messages as they are. -/
theorem Inv.silent (hw : Inv S w) {s : Host H F T} {i : Instr H F}
    (hrest : (w.hosts h).rest = i :: s.rest) (hsend : ∀ c q, i ≠ .send c q)
    (hreceive : ∀ c, i ≠ .receive c) (hs : s.Ok S h) (hpassed : (w.hosts h).passed ≤ s.passed)
    (hstored : s.stored = (w.hosts h).stored)
    (hstep : ∀ p q, ((w.setHost h s).hosts p).passed ≤ ((w.setHost h s).hosts q).arrived) :
    Inv S (w.setHost h s) := by
  have hcount := count_setHost (w := w) (s := s) hrest
  constructor
  case ok => exact ok_setHost hw.ok hs
  case inStep => exact hstep
  case flight =>
    intro m hm
    exact ⟨(hw.flight m hm).1, (hw.flight m hm).2.trans (passed_setHost hpassed m.src)⟩
  case sent =>
    intro d p r
    have hold := hw.sent d p r
    rw [hcount p (.send d r), if_neg fun hi => hsend d r hi.2, Nat.add_zero] at hold
    rw [← hold, stored_setHost hstored]
    rfl
  case got =>
    intro d r
    have hold := hw.got d r
    rw [hcount r (.receive d), if_neg fun hi => hreceive d hi.2, Nat.add_zero] at hold
    rw [← hold, stored_setHost hstored]
  case stored =>
    intro r d p m hm
    rw [stored_setHost hstored] at hm
    exact hw.stored r d p m hm

theorem Inv.bump (hw : Inv S w) {f : F} (hrest : (w.hosts h).rest = .bump f :: l) :
    Inv S (w.setHost h { w.hosts h with
      rest := l
      counter := Function.update (w.hosts h).counter f (next ((w.hosts h).counter f)) }) := by
  obtain ⟨n, hn, hfits⟩ := (hw.ok h).fits
  have hpassed := (hw.ok h).passed
  rw [hrest] at hfits
  rw [hrest, List.count_cons, if_neg (by simp)] at hpassed
  have hcounter (f' : F) : Function.update (w.hosts h).counter f (next ((w.hosts h).counter f)) f' =
      next^[Function.update n f (n f + 1) f'] (base f') := by
    by_cases hf : f' = f
    · subst hf
      rw [Function.update_self, Function.update_self, hn, Function.iterate_succ_apply']
    · rw [Function.update_of_ne hf, Function.update_of_ne hf, hn]
  have harrived : (w.hosts h).arrived = (w.hosts h).passed := Host.arrived_of_ne hrest (by simp)
  set s : Host H F T := { w.hosts h with
    rest := l
    counter := Function.update (w.hosts h).counter f (next ((w.hosts h).counter f)) }
  exact hw.silent hrest (by simp) (by simp) ⟨(hw.ok h).tail hrest, ⟨_, hcounter, hfits⟩, hpassed⟩
    le_rfl rfl (hw.inStep_setHost rfl (harrived.trans_le s.passed_le_arrived))

theorem Inv.barrier (hw : Inv S w) (hrest : (w.hosts h).rest = .barrier :: l)
    (hall : ∀ q, (w.hosts h).passed < (w.hosts q).arrived) :
    Inv S (w.setHost h { w.hosts h with rest := l, passed := (w.hosts h).passed + 1 }) := by
  set s : Host H F T := { w.hosts h with rest := l, passed := (w.hosts h).passed + 1 } with hdef
  obtain ⟨n, hn, hfits⟩ := (hw.ok h).fits
  have hpassed := (hw.ok h).passed
  rw [hrest] at hfits
  rw [hrest, List.count_cons, if_pos (by simp)] at hpassed
  have hs : s.Ok S h := {
    rest := (hw.ok h).tail hrest
    fits := ⟨n, hn, hfits⟩
    passed := by
      show (w.hosts h).passed + 1 + l.count .barrier = _
      omega }
  have harrived : (w.hosts h).arrived ≤ s.passed := by
    rw [Host.arrived]
    show _ ≤ (w.hosts h).passed + 1
    split_ifs <;> omega
  refine hw.silent hrest (by simp) (by simp) hs (Nat.le_succ _) rfl fun p q => ?_
  have hq : s.passed ≤ ((w.setHost h s).hosts q).arrived := by
    by_cases hqh : q = h
    · rw [hqh, hosts_setHost_self]
      exact s.passed_le_arrived
    · rw [hosts_setHost_of_ne w s hqh]
      exact hall q
  by_cases hph : p = h
  · rw [hph, hosts_setHost_self]
    exact hq
  · rw [hosts_setHost_of_ne w s hph]
    by_cases hqh : q = h
    · rw [hqh] at hq ⊢
      exact (hw.inStep p h).trans (harrived.trans hq)
    · rw [hosts_setHost_of_ne w s hqh]
      exact hw.inStep p q

theorem Inv.step (hw : Inv S w) (hstep : Step next w w') : Inv S w' := by
  cases hstep with
  | send hrest => exact hw.send hrest
  | receive hrest hm hdst htag => exact hw.receive hrest hm hdst htag
  | bump hrest => exact hw.bump hrest
  | barrier hrest hall => exact hw.barrier hrest hall

theorem inv_of_steps (hw : Steps next (start S.ops base) w) : Inv S w := by
  induction hw with
  | refl => exact inv_start S
  | tail _ hstep ih => exact ih.step hstep

/-- In every run a receive takes a message of its own call, and a call that has received all its
messages has stored one from every other host. -/
theorem Schedule.stored_eq (hw : Steps next (start S.ops base) w) (hc : .exchange c ∈ S.ops)
    (hdone : .receive c ∉ (w.hosts h).rest) (p : Fin H) :
    (w.hosts h).stored c p = if p = h then [] else [callMessage next base c p h] := by
  have hinv := inv_of_steps hw
  have hlen := hinv.stored_length hc hdone p
  by_cases hp : p = h
  · rw [if_neg (not_not_intro hp)] at hlen
    rw [if_pos hp]
    exact List.eq_nil_of_length_eq_zero hlen
  · rw [if_pos hp] at hlen
    rw [if_neg hp]
    obtain ⟨m, hm⟩ := List.length_eq_one_iff.mp hlen
    rw [hm, hinv.stored h c p m (hm ▸ List.mem_singleton_self m)]

section Progress

/-- An instruction with its destination left out. -/
def Instr.shape : Instr H F → Op F × Bool
  | .send c _ => (.exchange c, true)
  | .receive c => (.exchange c, false)
  | .bump f => (.bump f, true)
  | .barrier => (.barrier, true)

omit [DecidableEq F] [DecidableEq T] in
theorem shape_expand (h q : Fin H) (op : Op F) :
    (op.expand h).map Instr.shape = (op.expand q).map Instr.shape := by
  have hothers (r : Fin H) : ((List.finRange H).filter (· ≠ r)).length = H - 1 := by
    rw [← List.toFinset_card_of_nodup ((List.nodup_finRange H).filter _), List.toFinset_filter]
    simp [Finset.filter_ne', Finset.card_erase_of_mem]
  cases op with
  | exchange c =>
    have hsends (r : Fin H) : (((List.finRange H).filter (· ≠ r)).map
        (Instr.send c)).map Instr.shape = List.replicate (H - 1) (.exchange c, true) := by
      rw [List.map_map, ← hothers r, ← List.map_const]
      rfl
    rw [Op.expand, Op.expand, List.map_append, List.map_append, hsends, hsends]
  | bump f => rfl
  | barrier => rfl

omit [DecidableEq F] [DecidableEq T] in
theorem shape_program (ops : List (Op F)) (h q : Fin H) :
    (program ops h).map Instr.shape = (program ops q).map Instr.shape := by
  induction ops with
  | nil => rfl
  | cons op ops ih =>
    show (op.expand h ++ program ops h).map _ = (op.expand q ++ program ops q).map _
    rw [List.map_append, List.map_append, ih, shape_expand h q]

omit [DecidableEq F] in
theorem expand_pairwise (op : Op F) (h : Fin H) :
    (op.expand h).Pairwise fun i j => ∀ c q, i = .receive c → j ≠ .send c q := by
  cases op with
  | exchange d =>
    refine List.pairwise_append.mpr ⟨?_, ?_, ?_⟩
    · refine List.Pairwise.map _ (fun p q hpq c r hc => ?_)
        (List.pairwise_of_forall (R := fun _ _ => True) fun _ _ => trivial)
      simp at hc
    · refine List.pairwise_replicate.mpr (Or.inr fun c q _ => ?_)
      simp
    · intro i hi j hj c q hc
      obtain ⟨_, _, rfl⟩ := List.mem_map.mp hi
      simp at hc
  | bump f => exact List.pairwise_singleton _ _
  | barrier => exact List.pairwise_singleton _ _

/-- The sends of a call come before its receives. -/
theorem program_pairwise {ops : List (Op F)} (honce : ∀ c, ops.count (.exchange c) ≤ 1)
    (h : Fin H) :
    (program ops h).Pairwise fun i j => ∀ c q, i = .receive c → j ≠ .send c q := by
  induction ops with
  | nil => exact List.Pairwise.nil
  | cons op ops ih =>
    have htail (c : Call F) : ops.count (.exchange c) ≤ 1 :=
      (List.count_le_count_cons).trans (honce c)
    show (op.expand h ++ program ops h).Pairwise _
    refine List.pairwise_append.mpr ⟨expand_pairwise op h, ih htail, ?_⟩
    intro i hi j hj c q hic hjc
    have hcount := honce c
    have hi' := List.count_pos_iff.mpr (hic ▸ hi)
    have hj' := List.count_pos_iff.mpr (hjc ▸ hj)
    rw [count_receive_expand] at hi'
    rw [count_send] at hj'
    rw [List.count_cons] at hcount
    split_ifs at hi' hj' with hop hq
    · rw [if_pos (by simp [hop])] at hcount
      omega
    all_goals omega

/-- A host that is no further than another has the other's instructions among its own. -/
theorem Inv.shape_suffix (hw : Inv S w) {p q : Fin H}
    (hlen : (w.hosts q).rest.length ≤ (w.hosts p).rest.length) :
    (w.hosts q).rest.map Instr.shape <:+ (w.hosts p).rest.map Instr.shape := by
  have hp := (hw.ok p).rest.map Instr.shape
  have hq := (hw.ok q).rest.map Instr.shape
  rw [shape_program S.ops q p] at hq
  apply List.suffix_of_suffix_length_le hq hp
  rwa [List.length_map, List.length_map]

theorem count_barrier_shape (l : List (Instr H F)) :
    (l.map Instr.shape).count (.barrier, true) = l.count .barrier := by
  induction l with
  | nil => rfl
  | cons i l ih =>
    rw [List.map_cons, List.count_cons, List.count_cons, ih]
    cases i <;> simp [Instr.shape]

/-- A message is under way to a host that waits for one, when no other host is behind it. -/
theorem Inv.exists_message (hw : Inv S w) (hrest : (w.hosts h).rest = .receive c :: l)
    (hlast : ∀ q, (w.hosts q).rest.length ≤ (w.hosts h).rest.length) :
    ∃ p, callMessage next base c p h ∈ w.flight := by
  have hnosend (p : Fin H) : (w.hosts p).rest.count (.send c h) = 0 := by
    refine List.count_eq_zero.mpr fun hmem => ?_
    have hshape := (hw.shape_suffix (hlast p)).mem (List.mem_map_of_mem hmem)
    rw [hrest, List.map_cons] at hshape
    obtain ⟨j, hj, hjshape⟩ := List.mem_map.mp
      ((List.mem_cons.mp hshape).resolve_left (by simp [Instr.shape]))
    have hpair := (program_pairwise S.once h).sublist (hw.ok h).rest.sublist
    rw [hrest] at hpair
    cases j with
    | send d q =>
      obtain rfl : d = c := by simpa [Instr.shape] using hjshape
      exact (List.pairwise_cons.mp hpair).1 _ hj d q rfl rfl
    | receive d => simp [Instr.shape] at hjshape
    | bump f => simp [Instr.shape] at hjshape
    | barrier => simp [Instr.shape] at hjshape
  have hc := (hw.ok h).exchange_mem (hrest ▸ List.mem_cons_self)
  have hone : S.ops.count (.exchange c) = 1 :=
    Nat.le_antisymm (S.once c) (List.count_pos_iff.mpr hc)
  obtain ⟨p, hp, hzero⟩ : ∃ p, p ≠ h ∧ ((w.hosts h).stored c p).length = 0 := by
    by_contra hall
    have hle : ∑ p, (if p ≠ h then 1 else 0) ≤ ∑ p, ((w.hosts h).stored c p).length := by
      refine Finset.sum_le_sum fun p _ => ?_
      split_ifs with hp
      · exact Nat.pos_of_ne_zero fun hzero => hall ⟨p, hp, hzero⟩
      · exact Nat.zero_le _
    have hgot := hw.got c h
    rw [count_receive, hone, hrest, List.count_cons_self] at hgot
    rw [sum_others] at hle
    omega
  have hsent := hw.sent c p h
  rw [count_send, if_pos hp.symm, hone, hnosend, hzero] at hsent
  exact ⟨p, Multiset.count_pos.mp (by omega)⟩

/-- A host at a barrier passes it, when no other host is behind it. -/
theorem Inv.passed_lt_arrived (hw : Inv S w) (hrest : (w.hosts h).rest = .barrier :: l)
    (hlast : ∀ q, (w.hosts q).rest.length ≤ (w.hosts h).rest.length) (q : Fin H) :
    (w.hosts h).passed < (w.hosts q).arrived := by
  have hh := (hw.ok h).passed
  have hq := (hw.ok q).passed
  rw [← count_barrier_shape, ← count_barrier_shape, shape_program S.ops q h] at hq
  rw [← count_barrier_shape, ← count_barrier_shape] at hh
  have hsuffix := hw.shape_suffix (hlast q)
  rw [hrest, List.map_cons] at hsuffix
  rw [hrest, List.map_cons, Instr.shape, List.count_cons_self] at hh
  rcases List.suffix_cons_iff.mp hsuffix with heq | htail
  · rw [heq, Instr.shape, List.count_cons_self] at hq
    have hhead : (w.hosts q).rest.head? = some .barrier := by
      cases hr : (w.hosts q).rest with
      | nil => simp [hr] at heq
      | cons i l' =>
        rw [hr, List.map_cons, List.cons.injEq] at heq
        cases i with
        | barrier => rfl
        | send d r => simp [Instr.shape] at heq
        | receive d => simp [Instr.shape] at heq
        | bump f => simp [Instr.shape] at heq
    rw [Host.arrived, if_pos hhead]
    omega
  · have hle := htail.sublist.count_le (.barrier, true)
    have harrived := (w.hosts q).passed_le_arrived
    omega

/-- Some host can go on, until all have finished. -/
theorem Inv.exists_step (hw : Inv S w) (hrest : (w.hosts h).rest ≠ []) :
    ∃ w', Step next w w' := by
  obtain ⟨p, _, hmax⟩ := Finset.exists_max_image Finset.univ
    (fun q => (w.hosts q).rest.length) ⟨h, Finset.mem_univ h⟩
  have hlast (q : Fin H) := hmax q (Finset.mem_univ q)
  cases hp : (w.hosts p).rest with
  | nil =>
    have hlen := hlast h
    rw [hp] at hlen
    exact absurd (List.eq_nil_of_length_eq_zero (Nat.le_zero.mp hlen)) hrest
  | cons i l =>
    cases i with
    | send c q => exact ⟨_, .send hp⟩
    | bump f => exact ⟨_, .bump hp⟩
    | barrier => exact ⟨_, .barrier hp (hw.passed_lt_arrived hp hlast)⟩
    | receive c =>
      obtain ⟨q, hq⟩ := hw.exists_message hp hlast
      obtain ⟨n, hn, hfits⟩ := (hw.ok p).fits
      rw [hp] at hfits
      refine ⟨_, .receive hp hq rfl ?_⟩
      rw [hn, ← hfits.1]
      rfl

/-- The instructions all hosts have left. -/
def World.work (w : World H F T) : ℕ := ∑ h, (w.hosts h).rest.length

omit [DecidableEq F] [DecidableEq T] in
theorem work_setHost_lt {s : Host H F T} {i : Instr H F} (hrest : (w.hosts h).rest = i :: s.rest) :
    (w.setHost h s).work < w.work := by
  refine Finset.sum_lt_sum (fun q _ => ?_) ⟨h, Finset.mem_univ h, ?_⟩
  · by_cases hq : q = h
    · rw [hq, hosts_setHost_self, hrest]
      exact Nat.le_succ _
    · rw [hosts_setHost_of_ne w s hq]
  · rw [hosts_setHost_self, hrest]
    exact Nat.lt_succ_self _

theorem Step.work_lt (hstep : Step next w w') : w'.work < w.work := by
  cases hstep with
  | send hrest => exact work_setHost_lt hrest
  | receive hrest => exact work_setHost_lt hrest
  | bump hrest => exact work_setHost_lt hrest
  | barrier hrest => exact work_setHost_lt hrest

/-- Every run can be continued until all hosts have finished. -/
theorem Inv.exists_finished (hw : Inv S w) :
    ∃ w', Steps next w w' ∧ ∀ h, (w'.hosts h).rest = [] := by
  induction hn : w.work using Nat.strong_induction_on generalizing w with
  | _ n ih =>
    by_cases hall : ∀ h, (w.hosts h).rest = []
    · exact ⟨w, .refl, hall⟩
    · obtain ⟨h, hrest⟩ := not_forall.mp hall
      obtain ⟨w₁, hstep⟩ := hw.exists_step hrest
      obtain ⟨w₂, hsteps, hdone⟩ := ih _ (hn ▸ hstep.work_lt) (hw.step hstep) rfl
      exact ⟨w₂, hsteps.head hstep, hdone⟩

end Progress

end Invariant

end Exchanges
