import Mathlib.Combinatorics.SimpleGraph.Clique
import Mathlib.Data.Finset.Sort
import Mathlib.Data.Set.Card
import Mathlib.Tactic

/-! Triangles of a directed graph on ordered vertices, counted by their increasing triples. -/
namespace Triangles
variable {V : Type*} [LinearOrder V]

/-- The increasing triples with an edge from each vertex to each later one. -/
def increasing (E : V → V → Prop) : Set (V × V × V) :=
  {t | t.1 < t.2.1 ∧ t.2.1 < t.2.2 ∧ E t.1 t.2.1 ∧ E t.2.1 t.2.2 ∧ E t.1 t.2.2}

variable {E : V → V → Prop}

/-- An increasing triple is known by its vertices. -/
theorem increasing_injOn : (increasing E).InjOn fun t => ({t.1, t.2.1, t.2.2} : Finset V) := by
  rintro ⟨a, b, c⟩ ⟨hab, hbc, -⟩ ⟨a', b', c'⟩ ⟨hab', hbc', -⟩ heq
  have hsorted {x y z : V} (hxy : x < y) (hyz : y < z) : [x, y, z].Pairwise (· < ·) := by
    simp [hxy, hyz, hxy.trans hyz]
  have h := hsorted hab hbc
  have h' := hsorted hab' hbc'
  have hperm : [a, b, c].Perm [a', b', c'] := by
    apply List.perm_of_nodup_nodup_toFinset_eq (h.imp ne_of_lt) (h'.imp ne_of_lt)
    simpa using heq
  have hlist := hperm.eq_of_pairwise (fun x y _ _ hxy hyx => absurd hyx hxy.asymm) h h'
  simpa using hlist

/-- With edges both ways the increasing triples are the triangles of the undirected graph. -/
theorem ncard_increasing (hE : ∀ a b, E a b → E b a) :
    (increasing E).ncard = ((SimpleGraph.fromRel E).cliqueSet 3).ncard := by
  have himage : (fun t : V × V × V => ({t.1, t.2.1, t.2.2} : Finset V)) '' increasing E =
      (SimpleGraph.fromRel E).cliqueSet 3 := by
    ext s
    rw [SimpleGraph.mem_cliqueSet_iff]
    constructor
    · rintro ⟨⟨a, b, c⟩, ⟨hab, hbc, h1, h2, h3⟩, rfl⟩
      rw [SimpleGraph.is3Clique_iff]
      exact ⟨a, b, c, ⟨hab.ne, Or.inl h1⟩, ⟨(hab.trans hbc).ne, Or.inl h3⟩,
        ⟨hbc.ne, Or.inl h2⟩, rfl⟩
    · intro hs
      -- the vertices of the clique in their order
      have hlt {i j : Fin 3} (hij : i < j) :
          s.orderEmbOfFin hs.card_eq i < s.orderEmbOfFin hs.card_eq j ∧
            E (s.orderEmbOfFin hs.card_eq i) (s.orderEmbOfFin hs.card_eq j) := by
        have hlt := (s.orderEmbOfFin hs.card_eq).strictMono hij
        have hadj := hs.isClique (s.orderEmbOfFin_mem hs.card_eq i)
          (s.orderEmbOfFin_mem hs.card_eq j) hlt.ne
        exact ⟨hlt, hadj.2.elim id (hE _ _)⟩
      refine ⟨(s.orderEmbOfFin hs.card_eq 0, s.orderEmbOfFin hs.card_eq 1,
        s.orderEmbOfFin hs.card_eq 2), ⟨(hlt (by decide)).1, (hlt (by decide)).1,
        (hlt (by decide)).2, (hlt (by decide)).2, (hlt (by decide)).2⟩, ?_⟩
      have hall := s.image_orderEmbOfFin_univ hs.card_eq
      simpa [Fin.univ_succ] using hall
  rw [← himage, increasing_injOn.ncard_image]

variable [DecidableRel E] {N : Finset V}

/-- Counting the triples one vertex after the other. -/
theorem ncard_increasing_eq_sum (hN : ∀ a b, E a b → a ∈ N ∧ b ∈ N) :
    (increasing E).ncard = ∑ a ∈ N, ∑ b ∈ N, ∑ c ∈ N,
      if a < b ∧ b < c ∧ E a b ∧ E b c ∧ E a c then 1 else 0 := by
  have hset : increasing E = ((N ×ˢ N ×ˢ N).filter fun t : V × V × V =>
      t.1 < t.2.1 ∧ t.2.1 < t.2.2 ∧ E t.1 t.2.1 ∧ E t.2.1 t.2.2 ∧ E t.1 t.2.2 : Finset _) := by
    ext ⟨a, b, c⟩
    simp only [increasing, Set.mem_ofPred_eq, Finset.coe_filter, Finset.mem_product]
    constructor
    · intro h
      exact ⟨⟨(hN a b h.2.2.1).1, (hN a b h.2.2.1).2, (hN a c h.2.2.2.2).2⟩, h⟩
    · exact fun h => h.2
  rw [hset, Set.ncard_coe_finset, Finset.card_filter, Finset.sum_product]
  simp only [Finset.sum_product]

end Triangles
