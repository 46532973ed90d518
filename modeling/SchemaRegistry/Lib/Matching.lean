import Mathlib.Data.Finset.Card
import Mathlib.Data.Finset.Image
import Mathlib.Data.Set.Basic
import Mathlib.Logic.Function.Basic
import Mathlib.Order.Bounds.Basic

/-!
Matchings of a bipartite graph, grown one left vertex at a time. A matching is kept as the owner of
each right vertex. To place a new left vertex, the search may move others along; what it has seen it
does not touch again. When it fails, what it has seen is dead: each of those vertices is owned, by
one all of whose neighbours are dead. Later searches do not come through dead vertices, and a
matching in which only dead ends are left out is a maximum one (`card_le_card_of_dead`).
-/

namespace SchemaRegistry.Lib

section Matching

variable {L R : Type} (adj : L → R → Prop)

/-- Pairs of neighbours in which no vertex stands twice. -/
structure IsPairing (M : Finset (L × R)) : Prop where
  edge : ∀ p ∈ M, adj p.1 p.2
  left : ∀ p ∈ M, ∀ q ∈ M, p.1 = q.1 → p = q
  right : ∀ p ∈ M, ∀ q ∈ M, p.2 = q.2 → p = q

/-- A left vertex owns one vertex at most, apart from those seen. -/
def InjOff (seen : Set R) (owner : R → Option L) : Prop :=
  ∀ r r' x, r ∉ seen → r' ∉ seen → owner r = some x → owner r' = some x → r = r'

/-- A left vertex owns a vertex that is not among those seen. -/
def OwnsOff (seen : Set R) (owner : R → Option L) (x : L) : Prop := ∃ r, r ∉ seen ∧ owner r = some x

/-- Right vertices from which no search gets away. -/
def Dead (owner : R → Option L) (D : Set R) : Prop :=
  ∀ r ∈ D, ∃ l, owner r = some l ∧ ∀ r', adj l r' → r' ∈ D

/-- A left vertex has been placed without touching what was seen. -/
structure Placed (l : L) (seen : Set R) (owner owner' : R → Option L) : Prop where
  fixed : ∀ r ∈ seen, owner' r = owner r
  inj : InjOff seen owner'
  owners : ∀ x, OwnsOff seen owner' x ↔ x = l ∨ OwnsOff seen owner x
  edge : ∀ r x, owner' r = some x → owner r = some x ∨ adj x r
  dead : ∀ D, Dead adj owner D → ∀ r ∈ D, owner' r = owner r
  reach : ∀ D, Dead adj owner D → ¬ ∀ r, adj l r → r ∈ D

/-- A left vertex could not be placed: everything in reach of it has been seen and is owned. -/
structure Failed (l : L) (seen seen' : Set R) (owner : R → Option L) : Prop where
  grows : seen ⊆ seen'
  near : ∀ r, adj l r → r ∈ seen'
  owned : ∀ r ∈ seen', r ∉ seen → ∃ o, owner r = some o ∧ ∀ r', adj o r' → r' ∈ seen'

variable {adj} {l : L} {seen : Set R} {owner owner' : R → Option L} {r : R}

/-! ### Placing a vertex -/

section Placing

variable [DecidableEq R]

/-- A vertex is given to one that owns none of the others. -/
theorem injOff_update (hinj : ∀ a b x, a ∉ seen → b ∉ seen → a ≠ r → b ≠ r → owner a = some x →
      owner b = some x → a = b) (hl : ∀ a, a ∉ seen → a ≠ r → owner a ≠ some l) :
    InjOff seen (Function.update owner r (some l)) := by
  intro a b x ha hb hax hbx
  by_cases har : a = r <;> by_cases hbr : b = r
  · rw [har, hbr]
  · rw [har, Function.update_self] at hax
    rw [Function.update_of_ne hbr] at hbx
    exact absurd (hbx.trans hax.symm) (hl b hb hbr)
  · rw [hbr, Function.update_self] at hbx
    rw [Function.update_of_ne har] at hax
    exact absurd (hax.trans hbx.symm) (hl a ha har)
  · rw [Function.update_of_ne har] at hax
    rw [Function.update_of_ne hbr] at hbx
    exact hinj a b x ha hb har hbr hax hbx

/-- A free neighbour. -/
theorem Placed.of_free (hadj : adj l r) (hr : r ∉ seen) (hfree : owner r = none)
    (hinj : InjOff seen owner) (hl : ¬ OwnsOff seen owner l) :
    Placed adj l seen owner (Function.update owner r (some l)) where
  fixed s hs := by
    rw [Function.update_of_ne]
    rintro rfl
    exact hr hs
  inj := injOff_update (fun a b x ha hb _ _ => hinj a b x ha hb)
    fun a ha _ hal => hl ⟨a, ha, hal⟩
  owners x := by
    constructor
    · rintro ⟨a, ha, hax⟩
      by_cases har : a = r
      · rw [har, Function.update_self] at hax
        exact .inl (Option.some.inj hax).symm
      · rw [Function.update_of_ne har] at hax
        exact .inr ⟨a, ha, hax⟩
    · rintro (rfl | ⟨a, ha, hax⟩)
      · exact ⟨r, hr, Function.update_self ..⟩
      · refine ⟨a, ha, ?_⟩
        rw [Function.update_of_ne]
        · exact hax
        · rintro rfl
          rw [hfree] at hax
          cases hax
  edge a x hax := by
    by_cases har : a = r
    · rw [har, Function.update_self] at hax
      rw [har, ← Option.some.inj hax]
      exact .inr hadj
    · rw [Function.update_of_ne har] at hax
      exact .inl hax
  dead D hD a ha := by
    rw [Function.update_of_ne]
    rintro rfl
    obtain ⟨o, ho, -⟩ := hD a ha
    rw [hfree] at ho
    cases ho
  reach D hD hall := by
    obtain ⟨o, ho, -⟩ := hD r (hall r hadj)
    rw [hfree] at ho
    cases ho

/-- A neighbour whose owner could be moved. -/
theorem Placed.of_moved {o : L} (hadj : adj l r) (hr : r ∉ seen) (ho : owner r = some o)
    (hl : ¬ OwnsOff seen owner l) (h : Placed adj o (insert r seen) owner owner') :
    Placed adj l seen owner (Function.update owner' r (some l)) := by
  have hlo : o ≠ l := by
    rintro rfl
    exact hl ⟨r, hr, ho⟩
  have hoff : ∀ {a}, a ∉ seen → a ≠ r → a ∉ insert r seen := fun ha har hmem =>
    (Set.mem_insert_iff.mp hmem).elim har ha
  -- what others own off `r` they owned before, or it is the vertex moved
  have hothers : ∀ {a x}, a ∉ seen → a ≠ r → owner' a = some x →
      x = o ∨ OwnsOff seen owner x := by
    intro a x ha har hax
    rcases (h.owners x).mp ⟨a, hoff ha har, hax⟩ with hx | ⟨b, hb, hbx⟩
    · exact .inl hx
    · exact .inr ⟨b, fun hmem => hb (Set.mem_insert_of_mem r hmem), hbx⟩
  have hnot : ∀ {a}, a ∉ seen → a ≠ r → owner' a ≠ some l := by
    intro a ha har hal
    rcases hothers ha har hal with hx | hx
    · exact hlo hx.symm
    · exact hl hx
  refine ⟨?_, ?_, ?_, ?_, ?_, ?_⟩
  · intro s hs
    rw [Function.update_of_ne]
    · exact h.fixed s (Set.mem_insert_of_mem r hs)
    · rintro rfl
      exact hr hs
  · exact injOff_update (fun a b x ha hb har hbr => h.inj a b x (hoff ha har) (hoff hb hbr))
      fun a ha har => hnot ha har
  · intro x
    constructor
    · rintro ⟨a, ha, hax⟩
      by_cases har : a = r
      · rw [har, Function.update_self] at hax
        exact .inl (Option.some.inj hax).symm
      · rw [Function.update_of_ne har] at hax
        rcases hothers ha har hax with rfl | hx
        · exact .inr ⟨r, hr, ho⟩
        · exact .inr hx
    · rintro (rfl | ⟨a, ha, hax⟩)
      · exact ⟨r, hr, Function.update_self ..⟩
      · have hstill : OwnsOff (insert r seen) owner' x := by
          by_cases har : a = r
          · rw [har, ho] at hax
            exact (h.owners x).mpr (.inl (Option.some.inj hax).symm)
          · exact (h.owners x).mpr (.inr ⟨a, hoff ha har, hax⟩)
        obtain ⟨b, hb, hbx⟩ := hstill
        refine ⟨b, fun hmem => hb (Set.mem_insert_of_mem r hmem), ?_⟩
        rw [Function.update_of_ne]
        · exact hbx
        · rintro rfl
          exact hb (Set.mem_insert b seen)
  · intro a x hax
    by_cases har : a = r
    · rw [har, Function.update_self] at hax
      rw [har, ← Option.some.inj hax]
      exact .inr hadj
    · rw [Function.update_of_ne har] at hax
      exact h.edge a x hax
  · intro D hD a ha
    rw [Function.update_of_ne]
    · exact h.dead D hD a ha
    · rintro rfl
      obtain ⟨o', ho', hnear⟩ := hD a ha
      rw [ho] at ho'
      cases ho'
      exact h.reach D hD hnear
  · intro D hD hall
    obtain ⟨o', ho', hnear⟩ := hD r (hall r hadj)
    rw [ho] at ho'
    cases ho'
    exact h.reach D hD hnear

end Placing

/-- What was placed with more seen is placed with less. -/
theorem Placed.widen {seen' : Set R} (hsub : seen ⊆ seen') (hinj : InjOff seen owner)
    (hl : ¬ OwnsOff seen owner l) (h : Placed adj l seen' owner owner') :
    Placed adj l seen owner owner' := by
  -- a vertex among those seen since then still has its owner, who owns nothing else
  have hkept : ∀ {a b x}, a ∉ seen → a ∈ seen' → b ∉ seen' → owner' a = some x →
      owner' b ≠ some x := by
    intro a b x ha ha' hb hax hbx
    have hax' : owner a = some x := (h.fixed a ha').symm.trans hax
    rcases (h.owners x).mp ⟨b, hb, hbx⟩ with rfl | ⟨c, hc, hcx⟩
    · exact hl ⟨a, ha, hax'⟩
    · have hca := hinj c a x (fun hmem => hc (hsub hmem)) ha hcx hax'
      exact hc (hca ▸ ha')
  refine ⟨fun r hr => h.fixed r (hsub hr), ?_, fun x => ⟨?_, ?_⟩, h.edge, h.dead, h.reach⟩
  · intro a b x ha hb hax hbx
    by_cases ha' : a ∈ seen' <;> by_cases hb' : b ∈ seen'
    · exact hinj a b x ha hb ((h.fixed a ha').symm.trans hax) ((h.fixed b hb').symm.trans hbx)
    · exact absurd hbx (hkept ha ha' hb' hax)
    · exact absurd hax (hkept hb hb' ha' hbx)
    · exact h.inj a b x ha' hb' hax hbx
  · rintro ⟨a, ha, hax⟩
    by_cases ha' : a ∈ seen'
    · exact .inr ⟨a, ha, (h.fixed a ha').symm.trans hax⟩
    · rcases (h.owners x).mp ⟨a, ha', hax⟩ with rfl | ⟨b, hb, hbx⟩
      · exact .inl rfl
      · exact .inr ⟨b, fun hmem => hb (hsub hmem), hbx⟩
  · rintro (rfl | ⟨a, ha, hax⟩)
    · obtain ⟨b, hb, hbx⟩ := (h.owners x).mpr (.inl rfl)
      exact ⟨b, fun hmem => hb (hsub hmem), hbx⟩
    · by_cases ha' : a ∈ seen'
      · exact ⟨a, ha, (h.fixed a ha').trans hax⟩
      · obtain ⟨b, hb, hbx⟩ := (h.owners x).mpr (.inr ⟨a, ha', hax⟩)
        exact ⟨b, fun hmem => hb (hsub hmem), hbx⟩

/-! ### Dead ends -/

theorem Dead.union {D E : Set R} (hD : Dead adj owner D) (hE : Dead adj owner E) :
    Dead adj owner (D ∪ E) := by
  rintro r (hr | hr)
  · obtain ⟨o, ho, hnear⟩ := hD r hr
    exact ⟨o, ho, fun r' hr' => .inl (hnear r' hr')⟩
  · obtain ⟨o, ho, hnear⟩ := hE r hr
    exact ⟨o, ho, fun r' hr' => .inr (hnear r' hr')⟩

theorem Failed.dead {seen' : Set R} (h : Failed adj l ∅ seen' owner) : Dead adj owner seen' :=
  fun r hr => h.owned r hr (Set.notMem_empty r)

theorem Placed.keeps_dead {D : Set R} (h : Placed adj l seen owner owner') (hD : Dead adj owner D) :
    Dead adj owner' D := by
  intro r hr
  obtain ⟨o, ho, hnear⟩ := hD r hr
  exact ⟨o, (h.dead D hD r hr).trans ho, hnear⟩

/-- When all that is not placed has dead neighbours only, no pairing is larger. -/
theorem card_le_card_of_dead {M : Finset (L × R)} (hM : IsPairing adj M) {D : Set R}
    (hinj : InjOff ∅ owner) (hD : Dead adj owner D) {placed : Finset L}
    (howners : ∀ r x, owner r = some x → x ∈ placed)
    (hrest : ∀ p ∈ M, p.1 ∉ placed → p.2 ∈ D) : M.card ≤ placed.card := by
  classical
  -- a pair goes to the owner of its right vertex if that is dead, else to its left vertex
  let f : L × R → L := fun p => if p.2 ∈ D then (owner p.2).getD p.1 else p.1
  have hdead : ∀ p, p.2 ∈ D → owner p.2 = some (f p) ∧ ∀ r', adj (f p) r' → r' ∈ D := by
    intro p hp
    obtain ⟨o, ho, hnear⟩ := hD p.2 hp
    have hf : f p = o := by simp [f, hp, ho]
    rw [hf]
    exact ⟨ho, hnear⟩
  have hlive : ∀ p, p.2 ∉ D → f p = p.1 := fun p hp => by simp [f, hp]
  refine Finset.card_le_card_of_injOn f (fun p hp => ?_) (fun p hp q hq hpq => ?_)
  · by_cases hpD : p.2 ∈ D
    · exact howners _ _ (hdead p hpD).1
    · rw [hlive p hpD]
      by_contra hnot
      exact hpD (hrest p hp hnot)
  · by_cases hpD : p.2 ∈ D <;> by_cases hqD : q.2 ∈ D
    · have howner := (hdead p hpD).1
      rw [hpq] at howner
      exact hM.right p hp q hq
        (hinj _ _ _ (Set.notMem_empty _) (Set.notMem_empty _) howner (hdead q hqD).1)
    · rw [hlive q hqD] at hpq
      exact absurd ((hdead p hpD).2 q.2 (hpq ▸ hM.edge q hq)) hqD
    · rw [hlive p hpD] at hpq
      exact absurd ((hdead q hqD).2 p.2 (hpq ▸ hM.edge p hp)) hpD
    · rw [hlive p hpD, hlive q hqD] at hpq
      exact hM.left p hp q hq hpq

end Matching

end SchemaRegistry.Lib
