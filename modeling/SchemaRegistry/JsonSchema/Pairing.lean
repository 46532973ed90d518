import SchemaRegistry.Lib.Matching
import SchemaRegistry.JsonSchema.Numbers

/-!
The pairing of combined subschemas is a maximum one, so that changed subschemas are reported exactly
when no pairing of compatible ones takes up the smaller side.
-/

namespace SchemaRegistry.JsonSchema

open Lib

/-- The graph that lists of neighbours stand for. -/
def Adj (edges : List (List Nat)) (l r : Nat) : Prop := r ∈ edges.getD l []

/-- The neighbours are among the right vertices. -/
def InRange (edges : List (List Nat)) (right : Nat) : Prop := ∀ l r, Adj edges l r → r < right

/-- A search: whether a vertex could be placed, what has been seen and who owns what. -/
abbrev Outcome := Bool × List Nat × List (Nat × Nat)

/-- The search tries a neighbour. -/
def tryNext (search : Nat → List Nat × List (Nat × Nat) → Outcome) (l : Nat) (st : Outcome)
    (r : Nat) : Outcome :=
  if st.1 then st
  else if st.2.1.contains r then st
  else
    match st.2.2.lookup r with
    | none => (true, r :: st.2.1, (r, l) :: st.2.2)
    | some o =>
        let moved := search o (r :: st.2.1, st.2.2)
        if moved.1 then (true, moved.2.1, (r, l) :: moved.2.2) else (false, moved.2)

theorem augment_succ (edges : List (List Nat)) (fuel l : Nat) (st : List Nat × List (Nat × Nat)) :
    augment edges (fuel + 1) l st
      = (edges.getD l []).foldl (tryNext (augment edges fuel) l) (false, st) := by
  rw [augment]
  congr 1
  funext st r
  obtain ⟨done, seen, owner⟩ := st
  cases done <;> rfl

section Augment

variable {edges : List (List Nat)} {right l : Nat} {seen : List Nat} {owner : List (Nat × Nat)}

/-- The right vertices that have not been seen. -/
def unseen (right : Nat) (seen : List Nat) : Nat := (Finset.range right \ seen.toFinset).card

theorem unseen_cons_lt {r : Nat} (hr : r < right) (hnew : r ∉ seen) :
    unseen right (r :: seen) < unseen right seen := by
  refine Finset.card_lt_card ⟨fun x hx => ?_, fun hsub => ?_⟩
  · simp only [List.toFinset_cons, Finset.mem_sdiff, Finset.mem_insert, not_or] at hx ⊢
    exact ⟨hx.1, hx.2.2⟩
  · have hmem : r ∈ Finset.range right \ seen.toFinset := by simp [hr, hnew]
    simpa using hsub hmem

theorem unseen_mono {seen' : List Nat} (h : seen ⊆ seen') :
    unseen right seen' ≤ unseen right seen := by
  refine Finset.card_le_card fun x hx => ?_
  simp only [Finset.mem_sdiff, List.mem_toFinset] at hx ⊢
  exact ⟨hx.1, fun hmem => hx.2 (h hmem)⟩

theorem lookup_cons_update (r l : Nat) (owner : List (Nat × Nat)) :
    (fun s => ((r, l) :: owner).lookup s) = Function.update (owner.lookup ·) r (some l) := by
  funext s
  by_cases hs : s = r
  · simp [hs]
  · rw [Function.update_of_ne hs, List.lookup_cons, beq_eq_false_iff_ne.mpr hs]

/-- Where a search stands that started with `seen` and `owner` and has tried some neighbours. -/
structure Searched (edges : List (List Nat)) (l : Nat) (seen : List Nat) (owner : List (Nat × Nat))
    (tried : List Nat) (st : Outcome) : Prop where
  grows : seen ⊆ st.2.1
  placed : st.1 = true → Placed (Adj edges) l {r | r ∈ seen} (owner.lookup ·) (st.2.2.lookup ·)
  stuck : st.1 = false → st.2.2 = owner
  tries : st.1 = false → ∀ r ∈ tried, r ∈ st.2.1
  owned : st.1 = false → ∀ r ∈ st.2.1, r ∉ seen →
    ∃ o, owner.lookup r = some o ∧ ∀ r', Adj edges o r' → r' ∈ st.2.1

theorem Searched.start (seen : List Nat) (owner : List (Nat × Nat)) :
    Searched edges l seen owner [] (false, seen, owner) where
  grows := List.Subset.refl seen
  placed h := by cases h
  stuck _ := rfl
  tries _ r hr := by cases hr
  owned _ r hr hnot := absurd hr hnot

variable {tried : List Nat} {st : Outcome} {r : Nat}

/-- One more neighbour is tried. -/
theorem Searched.next (h : Searched edges l seen owner tried st)
    {search : Nat → List Nat × List (Nat × Nat) → Outcome} (hadj : Adj edges l r)
    (hinj : InjOff {r | r ∈ seen} (owner.lookup ·))
    (hl : ¬ OwnsOff {r | r ∈ seen} (owner.lookup ·) l)
    (hsearch : ∀ seen', seen ⊆ seen' → r ∉ seen' → ∀ o, owner.lookup r = some o →
      Searched edges o (r :: seen') owner (edges.getD o []) (search o (r :: seen', owner))) :
    Searched edges l seen owner (tried ++ [r]) (tryNext search l st r) := by
  obtain ⟨done, seen₁, owner₁⟩ := st
  cases done with
  | true => exact ⟨h.grows, h.placed, nofun, nofun, nofun⟩
  | false =>
    obtain rfl : owner₁ = owner := h.stuck rfl
    have hgrows : seen ⊆ seen₁ := h.grows
    have htried : ∀ x ∈ tried, x ∈ seen₁ := h.tries rfl
    have howned : ∀ x ∈ seen₁, x ∉ seen → ∃ o, owner₁.lookup x = some o ∧
        ∀ r', Adj edges o r' → r' ∈ seen₁ := h.owned rfl
    have hinj₁ : InjOff {x | x ∈ seen₁} (owner₁.lookup ·) := fun a b x ha hb =>
      hinj a b x (fun hmem => ha (hgrows hmem)) (fun hmem => hb (hgrows hmem))
    have hl₁ : ¬ OwnsOff {x | x ∈ seen₁} (owner₁.lookup ·) l := fun ⟨a, ha, hal⟩ =>
      hl ⟨a, fun hmem => ha (hgrows hmem), hal⟩
    rw [tryNext]
    simp only [Bool.false_eq_true, if_false]
    split
    · rename_i hseen
      refine ⟨hgrows, nofun, fun _ => rfl, fun _ x hx => ?_, fun _ => howned⟩
      rcases List.mem_append.mp hx with hx | hx
      · exact htried x hx
      · rw [List.mem_singleton.mp hx]
        exact List.contains_iff_mem.mp hseen
    · rename_i hseen
      have hnew : r ∉ seen₁ := fun hmem => hseen (List.contains_iff_mem.mpr hmem)
      split
      · rename_i hfree
        refine ⟨fun x hx => List.mem_cons_of_mem r (hgrows hx), fun _ => ?_, nofun, nofun, nofun⟩
        rw [lookup_cons_update]
        exact (Placed.of_free hadj hnew hfree hinj₁ hl₁).widen hgrows hinj hl
      · rename_i o ho
        have hmoved := hsearch seen₁ hgrows hnew o ho
        split
        · rename_i hfound
          have hplaced := hmoved.placed hfound
          have hset : {x | x ∈ r :: seen₁} = insert r {x | x ∈ seen₁} := by
            ext x
            simp
          rw [hset] at hplaced
          refine ⟨fun x hx => hmoved.grows (List.mem_cons_of_mem r (hgrows hx)), fun _ => ?_, nofun,
            nofun, nofun⟩
          rw [lookup_cons_update]
          exact (Placed.of_moved hadj hnew ho hl₁ hplaced).widen hgrows hinj hl
        · rename_i hnot
          have hfalse := Bool.eq_false_iff.mpr hnot
          refine ⟨fun x hx => hmoved.grows (List.mem_cons_of_mem r (hgrows hx)), nofun,
            fun _ => hmoved.stuck hfalse, fun _ x hx => ?_, fun _ x hx hxs => ?_⟩
          · rcases List.mem_append.mp hx with hx | hx
            · exact hmoved.grows (List.mem_cons_of_mem r (htried x hx))
            · rw [List.mem_singleton.mp hx]
              exact hmoved.grows List.mem_cons_self
          · -- seen before, or the neighbour itself, or seen on the way from its owner
            by_cases hx₁ : x ∈ seen₁
            · obtain ⟨o', ho', hnear⟩ := howned x hx₁ hxs
              exact ⟨o', ho', fun r' hr' =>
                hmoved.grows (List.mem_cons_of_mem r (hnear r' hr'))⟩
            · by_cases hxr : x = r
              · rw [hxr]
                exact ⟨o, ho, fun r' hr' => hmoved.tries hfalse r' hr'⟩
              · exact hmoved.owned hfalse x hx (by simp [hxr, hx₁])

theorem augment_spec (hrange : InRange edges right) (fuel l : Nat) (seen : List Nat)
    (owner : List (Nat × Nat)) (hinj : InjOff {r | r ∈ seen} (owner.lookup ·))
    (hl : ¬ OwnsOff {r | r ∈ seen} (owner.lookup ·) l) (hfuel : unseen right seen < fuel) :
    Searched edges l seen owner (edges.getD l []) (augment edges fuel l (seen, owner)) := by
  induction fuel generalizing l seen owner with
  | zero => exact absurd hfuel (Nat.not_lt_zero _)
  | succ fuel ih =>
    have hloop : ∀ (rs tried : List Nat) (st : Outcome), (∀ r ∈ rs, Adj edges l r) →
        Searched edges l seen owner tried st →
        Searched edges l seen owner (tried ++ rs)
          (rs.foldl (tryNext (augment edges fuel) l) st) := by
      intro rs
      induction rs with
      | nil =>
        intro tried st _ h
        rw [List.append_nil]
        exact h
      | cons r rs ihrs =>
        intro tried st hrs h
        have hadj := hrs r List.mem_cons_self
        rw [List.foldl_cons, ← List.singleton_append, ← List.append_assoc]
        refine ihrs _ _ (fun x hx => hrs x (List.mem_cons_of_mem r hx)) ?_
        refine h.next hadj hinj hl fun seen' hsub hnew o ho => ih o _ owner ?_ ?_ ?_
        · intro a b x ha hb
          exact hinj a b x (fun hmem => ha (List.mem_cons_of_mem r (hsub hmem)))
            (fun hmem => hb (List.mem_cons_of_mem r (hsub hmem)))
        · -- its owner owns nothing else
          rintro ⟨a, ha, hao⟩
          have har : a = r := hinj a r o (fun hmem => ha (List.mem_cons_of_mem r (hsub hmem)))
            (fun hmem => hnew (hsub hmem)) hao ho
          exact ha (har ▸ List.mem_cons_self)
        · have hless := unseen_cons_lt (hrange l r hadj) hnew
          have hmono : unseen right seen' ≤ unseen right seen := unseen_mono hsub
          omega
    rw [augment_succ]
    exact hloop _ [] _ (fun r hr => hr) (Searched.start seen owner)

end Augment

/-! ### The whole matching -/

/-- After the left vertices below `k`: who owns what is a matching, as large as was counted, and the
vertices that were not placed have dead neighbours only. -/
structure Matched (edges : List (List Nat)) (k count : Nat) (owner : List (Nat × Nat))
    (placed : Finset Nat) (D : Set Nat) : Prop where
  size : placed.card = count
  below : ∀ x ∈ placed, x < k
  owners : ∀ x, OwnsOff ∅ (owner.lookup ·) x ↔ x ∈ placed
  inj : InjOff ∅ (owner.lookup ·)
  edge : ∀ r x, owner.lookup r = some x → Adj edges x r
  dead : Dead (Adj edges) (owner.lookup ·) D
  rest : ∀ l < k, l ∉ placed → ∀ r, Adj edges l r → r ∈ D

section Whole

variable {edges : List (List Nat)} {right : Nat}

/-- One turn of the loop over the left vertices. -/
def placeNext (edges : List (List Nat)) (right : Nat) (st : Nat × List (Nat × Nat)) (l : Nat) :
    Nat × List (Nat × Nat) :=
  let result := augment edges (right + 1) l ([], st.2)
  (if result.1 then st.1 + 1 else st.1, result.2.2)

theorem maxMatching_eq (edges : List (List Nat)) (right : Nat) :
    maxMatching edges right = ((List.range edges.length).foldl (placeNext edges right) (0, [])).1 :=
  rfl

theorem Matched.next (hrange : InRange edges right) {k count : Nat} {owner : List (Nat × Nat)}
    {placed : Finset Nat} {D : Set Nat} (h : Matched edges k count owner placed D) :
    ∃ placed' D', Matched edges (k + 1) (placeNext edges right (count, owner) k).1
      (placeNext edges right (count, owner) k).2 placed' D' := by
  have hempty : {r | r ∈ ([] : List Nat)} = ∅ := by simp
  have hk : ¬ OwnsOff ∅ (owner.lookup ·) k := fun hown =>
    absurd (h.below k ((h.owners k).mp hown)) (Nat.lt_irrefl k)
  have hspec := augment_spec hrange (right + 1) k [] owner (hempty ▸ h.inj) (hempty ▸ hk)
    (by simp [unseen])
  rw [placeNext]
  generalize augment edges (right + 1) k ([], owner) = result at hspec ⊢
  obtain ⟨found, seen, owner'⟩ := result
  cases found with
  | true =>
    have hplaced : Placed (Adj edges) k ∅ (owner.lookup ·) (owner'.lookup ·) :=
      hempty ▸ hspec.placed rfl
    have hknew : k ∉ placed := fun hmem => hk ((h.owners k).mpr hmem)
    refine ⟨insert k placed, D, ?_, ?_, ?_, hplaced.inj, ?_, hplaced.keeps_dead h.dead, ?_⟩
    · rw [Finset.card_insert_of_notMem hknew, h.size]
      rfl
    · intro x hx
      rcases Finset.mem_insert.mp hx with rfl | hx
      · omega
      · have := h.below x hx
        omega
    · intro x
      rw [hplaced.owners, h.owners, Finset.mem_insert]
    · intro r x hx
      rcases hplaced.edge r x hx with hold | hadj
      · exact h.edge r x hold
      · exact hadj
    · intro l hl hnot
      rw [Finset.mem_insert, not_or] at hnot
      exact h.rest l (by omega) hnot.2
  | false =>
    obtain rfl : owner' = owner := hspec.stuck rfl
    have hfailed : Failed (Adj edges) k ∅ {r | r ∈ seen} (owner'.lookup ·) :=
      ⟨Set.empty_subset _, fun r hr => hspec.tries rfl r hr,
        fun r hr _ => hspec.owned rfl r hr List.not_mem_nil⟩
    refine ⟨placed, D ∪ {r | r ∈ seen}, h.size, fun x hx => ?_, h.owners, h.inj, h.edge,
      h.dead.union hfailed.dead, fun l hl hnot r hr => ?_⟩
    · have := h.below x hx
      omega
    · by_cases hlk : l = k
      · exact .inr (hfailed.near r (hlk ▸ hr))
      · exact .inl (h.rest l (by omega) hnot r hr)

theorem matched_foldl (hrange : InRange edges right) (k : Nat) :
    ∃ placed D, Matched edges k ((List.range k).foldl (placeNext edges right) (0, [])).1
      ((List.range k).foldl (placeNext edges right) (0, [])).2 placed D := by
  induction k with
  | zero =>
    refine ⟨∅, ∅, rfl, by simp, by simp [OwnsOff], ?_, nofun, ?_, nofun⟩
    · intro r r' x _ _ hx
      cases hx
    · exact fun r hr => absurd hr (Set.notMem_empty r)
  | succ k ih =>
    obtain ⟨placed, D, h⟩ := ih
    rw [List.range_succ, List.foldl_append]
    exact h.next hrange

/-- The pairs of a matching that is kept by its owners. -/
theorem Matched.exists_pairing (hrange : InRange edges right) {k count : Nat}
    {owner : List (Nat × Nat)} {placed : Finset Nat} {D : Set Nat}
    (h : Matched edges k count owner placed D) :
    ∃ M : Finset (Nat × Nat), IsPairing (Adj edges) M ∧ M.card = count := by
  let pair : Nat → Option (Nat × Nat) := fun r => (owner.lookup r).map (·, r)
  have hpair : ∀ p r, pair r = some p ↔ r = p.2 ∧ owner.lookup p.2 = some p.1 := by
    rintro ⟨x, r'⟩ r
    simp only [pair, Option.map_eq_some_iff, Prod.mk.injEq]
    constructor
    · rintro ⟨y, hy, rfl, rfl⟩
      exact ⟨rfl, hy⟩
    · rintro ⟨rfl, hx⟩
      exact ⟨x, hx, rfl, rfl⟩
  let M := ((List.range right).filterMap pair).toFinset
  have hmem : ∀ p, p ∈ M ↔ owner.lookup p.2 = some p.1 := by
    intro p
    simp only [M, List.mem_toFinset, List.mem_filterMap, List.mem_range, hpair]
    constructor
    · rintro ⟨r, -, -, hp⟩
      exact hp
    · intro hp
      exact ⟨p.2, hrange _ _ (h.edge _ _ hp), rfl, hp⟩
  have hM : IsPairing (Adj edges) M := by
    refine ⟨fun p hp => h.edge _ _ ((hmem p).mp hp), fun p hp q hq hpq =>
      ?_, fun p hp q hq hpq => ?_⟩
    · have hq' := (hmem q).mp hq
      rw [← hpq] at hq'
      exact Prod.ext hpq
        (h.inj _ _ _ (Set.notMem_empty _) (Set.notMem_empty _) ((hmem p).mp hp) hq')
    · have hq' := (hmem q).mp hq
      rw [← hpq, (hmem p).mp hp] at hq'
      exact Prod.ext (Option.some.inj hq') hpq
  have himage : M.image Prod.fst = placed := by
    ext x
    rw [← h.owners]
    simp only [Finset.mem_image, hmem, OwnsOff]
    constructor
    · rintro ⟨p, hp, rfl⟩
      exact ⟨p.2, Set.notMem_empty _, hp⟩
    · rintro ⟨r, -, hr⟩
      exact ⟨(x, r), hr, rfl⟩
  refine ⟨M, hM, ?_⟩
  rw [← h.size, ← himage, Finset.card_image_of_injOn fun p hp q hq hpq => hM.left p hp q hq hpq]

/-- The sizes that pairings can have. -/
def pairingSizes (adj : Nat → Nat → Prop) : Set Nat :=
  {n | ∃ M : Finset (Nat × Nat), IsPairing adj M ∧ M.card = n}

theorem isGreatest_maxMatching (hrange : InRange edges right) :
    IsGreatest (pairingSizes (Adj edges)) (maxMatching edges right) := by
  obtain ⟨placed, D, h⟩ := matched_foldl hrange edges.length
  rw [maxMatching_eq]
  refine ⟨h.exists_pairing hrange, ?_⟩
  rintro n ⟨M, hM, rfl⟩
  rw [← h.size]
  refine card_le_card_of_dead hM h.inj h.dead (fun r x hx => ?_) fun p hp hnot => ?_
  · exact (h.owners x).mp ⟨r, Set.notMem_empty r, hx⟩
  · have hlt : p.1 < edges.length := by
      by_contra hge
      have hadj := hM.edge p hp
      rw [Adj, List.getD_eq_getElem?_getD, List.getElem?_eq_none (Nat.not_lt.mp hge)] at hadj
      cases hadj
    exact h.rest p.1 hlt hnot p.2 (hM.edge p hp)

/-- A pairing may be cut down to any smaller size. -/
theorem mem_pairingSizes_of_le {adj : Nat → Nat → Prop} {m n : Nat} (hmn : m ≤ n)
    (h : n ∈ pairingSizes adj) : m ∈ pairingSizes adj := by
  obtain ⟨M, hM, rfl⟩ := h
  obtain ⟨S, hS, hcard⟩ := Finset.exists_subset_card_eq hmn
  exact ⟨S, ⟨fun p hp => hM.edge p (hS hp), fun p hp q hq => hM.left p (hS hp) q (hS hq),
    fun p hp q hq => hM.right p (hS hp) q (hS hq)⟩, hcard⟩

theorem lt_iff_notMem_pairingSizes {adj : Nat → Nat → Prop} {m n : Nat}
    (h : IsGreatest (pairingSizes adj) n) : n < m ↔ m ∉ pairingSizes adj := by
  constructor
  · intro hlt hmem
    exact absurd (h.2 hmem) (Nat.not_le.mpr hlt)
  · intro hnot
    by_contra hle
    exact hnot (mem_pairingSizes_of_le (Nat.not_lt.mp hle) h.1)

end Whole

/-! ### Combined schemas -/

section Combined

variable (rec : Compare) (om um : Model) (stack : List Nat) (path : List String) (oc : Criterion)

/-- Subschemas of the two sides, by their places, of which the reader's can read the writer's. -/
def CanPair (os us : List Nat) (i j : Nat) : Prop :=
  ∃ o u diffs, os[i]? = some o ∧ us[j]? = some u ∧
    rec om um stack (path ++ [oc.name ++ "/" ++ toString i]) (some o) (some u) = some diffs ∧
    compatible diffs = true

/-- The comparison of any two subschemas comes to an end. -/
def PairsEnd (os us : List Nat) : Prop :=
  ∀ (i o : Nat), os[i]? = some o → ∀ u ∈ us, ∃ diffs,
    rec om um stack (path ++ [oc.name ++ "/" ++ toString i]) (some o) (some u) = some diffs

variable {rec om um stack path oc}

theorem mem_matching {us : List Nat} {o i : Nat} {js : List Nat}
    (h : matching rec om um stack path oc us (o, i) = some js) (j : Nat) :
    j ∈ js ↔ ∃ u diffs, us[j]? = some u ∧
      rec om um stack (path ++ [oc.name ++ "/" ++ toString i]) (some o) (some u) = some diffs ∧
      compatible diffs = true := by
  obtain ⟨verdicts, hverdicts, h⟩ := Option.bind_eq_some_iff.mp h
  cases h
  have hget : ∀ k : Nat, verdicts[k]? = us[k]?.bind fun u =>
      (rec om um stack (path ++ [oc.name ++ "/" ++ toString i]) (some o) (some u)).bind fun diffs =>
        some (if compatible diffs then [k] else []) := by
    intro k
    rw [getElem?_mapM hverdicts, List.getElem?_zipIdx, Option.bind_map, Nat.zero_add]
    rfl
  rw [List.mem_flatten]
  constructor
  · rintro ⟨found, hfound, hj⟩
    obtain ⟨k, hk⟩ := List.mem_iff_getElem?.mp hfound
    rw [hget] at hk
    obtain ⟨u, hu, hk⟩ := Option.bind_eq_some_iff.mp hk
    obtain ⟨diffs, hdiffs, hk⟩ := Option.bind_eq_some_iff.mp hk
    cases hk
    split at hj
    · rename_i hok
      rw [List.mem_singleton.mp hj]
      exact ⟨u, diffs, hu, hdiffs, hok⟩
    · cases hj
  · rintro ⟨u, diffs, hu, hdiffs, hok⟩
    have hj := hget j
    rw [hu, Option.bind_some, hdiffs, Option.bind_some, if_pos hok] at hj
    exact ⟨[j], List.mem_of_getElem? hj, List.mem_singleton_self j⟩

theorem adj_iff_canPair {os us : List Nat} {edges : List (List Nat)}
    (h : os.zipIdx.mapM (matching rec om um stack path oc us) = some edges) (i j : Nat) :
    Adj edges i j ↔ CanPair rec om um stack path oc os us i j := by
  have hget : edges[i]? = os[i]?.bind fun o => matching rec om um stack path oc us (o, i) := by
    rw [getElem?_mapM h, List.getElem?_zipIdx, Option.bind_map, Nat.zero_add]
    rfl
  rw [Adj, List.getD_eq_getElem?_getD, CanPair]
  cases ho : os[i]? with
  | none =>
    rw [ho] at hget
    simp [hget]
  | some o =>
    rw [ho, Option.bind_some] at hget
    cases hjs : matching rec om um stack path oc us (o, i) with
    | none =>
        -- the comparison of every element has come to an end
        have hlen : i < edges.length := by
          rw [← length_eq_of_mapM h, List.length_zipIdx]
          exact (List.getElem?_eq_some_iff.mp ho).1
        rw [hjs, List.getElem?_eq_getElem hlen] at hget
        cases hget
    | some js =>
        rw [hjs] at hget
        simp [hget, mem_matching hjs]

theorem inRange_of_canPair {os us : List Nat} {edges : List (List Nat)}
    (h : os.zipIdx.mapM (matching rec om um stack path oc us) = some edges) :
    InRange edges us.length := by
  intro i j hadj
  obtain ⟨o, u, diffs, -, hu, -⟩ := (adj_iff_canPair h i j).mp hadj
  exact (List.getElem?_eq_some_iff.mp hu).1

theorem exists_matching {os us : List Nat} (h : PairsEnd rec om um stack path oc os us) :
    ∃ edges, os.zipIdx.mapM (matching rec om um stack path oc us) = some edges := by
  refine exists_mapM fun p hp => ?_
  have hos := List.mem_zipIdx_iff_getElem?.mp hp
  refine Exists.elim (exists_mapM ?_) fun verdicts hverdicts =>
    ⟨verdicts.flatten, Option.bind_eq_some_iff.mpr ⟨verdicts, hverdicts, rfl⟩⟩
  intro q hq
  obtain ⟨diffs, hdiffs⟩ := h p.2 p.1 hos q.1 (List.fst_mem_of_mem_zipIdx hq)
  exact ⟨_, Option.bind_eq_some_iff.mpr ⟨diffs, hdiffs, rfl⟩⟩

/-- Combined schemas are compared to the end if the subschemas that are compared are. -/
theorem exists_compareCombined {uc : Criterion} {os us : List Nat} {oraw uraw : List Json}
    (h : oc = uc ∨ criterionExtended oc uc os us = true →
      PairsEnd rec om um stack path oc (dedup os oraw) (dedup us uraw)) :
    ∃ diffs, compareCombined rec om um stack path oc uc os us oraw uraw = some diffs := by
  rw [compareCombined]
  split
  · exact ⟨_, rfl⟩
  · rename_i hgo
    have hyes : oc = uc ∨ criterionExtended oc uc os us = true := by
      by_contra hno
      exact hgo (by simpa using hno)
    obtain ⟨edges, hedges⟩ := exists_matching (h hyes)
    exact ⟨_, Option.bind_eq_some_iff.mpr ⟨edges, hedges, rfl⟩⟩

/-- What is said of the ways of combining and of the numbers of subschemas. -/
theorem kind_of_mem_combined {uc : Criterion} {m n : Nat} {d : Diff}
    (hd : d ∈ (if oc ≠ uc then [.add path .combinedTypeExtended] else [])
      ++ (if m < n then [.add path (if uc = .all then .productTypeExtended else .sumTypeExtended)]
        else if n < m then
          [.add path (if oc = .all then .productTypeNarrowed else .sumTypeNarrowed)]
        else [])) : d.kind ≠ .combinedTypeSubschemasChanged := by
  rcases List.mem_append.mp hd with hd | hd
  · split at hd
    · rw [List.mem_singleton.mp hd]
      simp [Diff.add]
    · cases hd
  · split at hd
    · rw [List.mem_singleton.mp hd]
      simp only [Diff.add]
      split <;> simp
    · split at hd
      · rw [List.mem_singleton.mp hd]
        simp only [Diff.add]
        split <;> simp
      · cases hd

/-- Changed subschemas are reported when the two ways of combining go together and the subschemas
cannot be paired off. -/
theorem compareCombined_reports {uc : Criterion} {os us : List Nat} {oraw uraw : List Json}
    {diffs : List Diff}
    (h : compareCombined rec om um stack path oc uc os us oraw uraw = some diffs) :
    (∃ d ∈ diffs, d.kind = .combinedTypeSubschemasChanged) ↔
      (oc = uc ∨ criterionExtended oc uc os us = true) ∧
      min (dedup os oraw).length (dedup us uraw).length ∉
        pairingSizes (CanPair rec om um stack path oc (dedup os oraw) (dedup us uraw)) := by
  rw [compareCombined] at h
  split at h
  · rename_i hchanged
    cases h
    have hno : ¬ (oc = uc ∨ criterionExtended oc uc os us = true) := by
      simpa using hchanged
    simp [hno, Diff.add]
  · rename_i hgo
    have hyes : oc = uc ∨ criterionExtended oc uc os us = true := by
      by_contra hno
      exact hgo (by simpa using hno)
    obtain ⟨edges, hedges, h⟩ := Option.bind_eq_some_iff.mp h
    have hgreatest := isGreatest_maxMatching (inRange_of_canPair hedges)
    have hadj : Adj edges = CanPair rec om um stack path oc (dedup os oraw) (dedup us uraw) :=
      funext fun i => funext fun j => propext (adj_iff_canPair hedges i j)
    rw [hadj] at hgreatest
    cases h
    rw [← lt_iff_notMem_pairingSizes hgreatest]
    constructor
    · rintro ⟨d, hd, hkind⟩
      refine ⟨hyes, ?_⟩
      rcases List.mem_append.mp hd with hd | hd
      · exact absurd hkind (kind_of_mem_combined hd)
      · split at hd
        · assumption
        · cases hd
    · rintro ⟨-, hlt⟩
      refine ⟨Diff.add path .combinedTypeSubschemasChanged, List.mem_append_right _ ?_, rfl⟩
      rw [if_pos hlt]
      exact List.mem_singleton_self _

end Combined

/-- The matching is a maximum one; if the comparisons of subschemas come to an end, so does that of
the combined schemas, and changed subschemas are reported when the ways of combining go together and
no pairing of compatible subschemas takes up the smaller side. -/
theorem matching_maximum_and_reports :
    (∀ edges right, InRange edges right →
      IsGreatest (pairingSizes (Adj edges)) (maxMatching edges right)) ∧
    ∀ (rec : Compare) (om um : Model) (stack : List Nat) (path : List String) (oc uc : Criterion)
      (os us : List Nat) (oraw uraw : List Json),
      (oc = uc ∨ criterionExtended oc uc os us = true →
        PairsEnd rec om um stack path oc (dedup os oraw) (dedup us uraw)) →
      ∃ diffs, compareCombined rec om um stack path oc uc os us oraw uraw = some diffs ∧
        ((∃ d ∈ diffs, d.kind = .combinedTypeSubschemasChanged) ↔
          (oc = uc ∨ criterionExtended oc uc os us = true) ∧
          min (dedup os oraw).length (dedup us uraw).length ∉
            pairingSizes (CanPair rec om um stack path oc (dedup os oraw) (dedup us uraw))) := by
  refine ⟨fun _ _ hrange => isGreatest_maxMatching hrange, ?_⟩
  intro rec om um stack path oc uc os us oraw uraw hends
  obtain ⟨diffs, hdiffs⟩ := exists_compareCombined hends
  exact ⟨diffs, hdiffs, compareCombined_reports hdiffs⟩

/-! ### Two types against two others -/

def typeJson (name : String) : Json := .object [("type", .string name)]

/-- A boolean and null. -/
def plainTypes : Model := ⟨[.bare .boolean, .bare .null], 0⟩

/-- Null and a boolean. -/
def turnedTypes : Model := ⟨[.bare .null, .bare .boolean], 0⟩

/-- A string and a conditional. -/
def otherTypes : Model := ⟨[.bare (.str ⟨none, none, none⟩), .bare .conditional], 0⟩

theorem not_canPair (i j : Nat) : ¬ CanPair (compare doubles 2) plainTypes otherTypes [] [] .one
    [0, 1] [0, 1] i j := by
  rintro ⟨o, u, diffs, ho, hu, hdiffs, hok⟩
  have hincompatible : ∀ o ∈ [0, 1], ∀ u ∈ [0, 1], ∀ path : List String,
      compare doubles 2 plainTypes otherTypes [] path (some o) (some u)
        = some [.add path .typeChanged] := by
    intro o ho u hu path
    simp only [List.mem_cons, List.not_mem_nil, or_false] at ho hu
    rcases ho with rfl | rfl <;> rcases hu with rfl | rfl <;> rfl
  rw [hincompatible o (List.mem_of_getElem? ho) u (List.mem_of_getElem? hu)] at hdiffs
  cases hdiffs
  revert hok
  simp [compatible, Diff.add, Diff.incompatible, DiffKind.compatible]

/-- One of two types becomes all of two others: nothing can be paired, and what is reported is that
the way of combining has changed. -/
theorem compareCombined_unreported :
    compareCombined (compare doubles 2) plainTypes otherTypes [] [] .one .all [0, 1] [0, 1]
        [typeJson "boolean", typeJson "null"] [typeJson "string", .object [("if", .bool true)]]
      = some [.add [] .combinedTypeChanged] ∧
    dedup [0, 1] [typeJson "boolean", typeJson "null"] = [0, 1] ∧
    dedup [0, 1] [typeJson "string", .object [("if", .bool true)]] = [0, 1] ∧
    2 ∉ pairingSizes
      (CanPair (compare doubles 2) plainTypes otherTypes [] [] .one [0, 1] [0, 1]) := by
  refine ⟨by decide, by decide, by decide, ?_⟩
  rintro ⟨M, hM, hcard⟩
  obtain ⟨p, hp⟩ := Finset.card_pos.mp (by omega : 0 < M.card)
  exact not_canPair p.1 p.2 (hM.edge p hp)

theorem pairsEnd_turned : PairsEnd (compare doubles 2) plainTypes turnedTypes [] [] .one
    (dedup [0, 1] [typeJson "boolean", typeJson "null"])
    (dedup [0, 1] [typeJson "null", typeJson "boolean"]) := by
  have hos : dedup [0, 1] [typeJson "boolean", typeJson "null"] = [0, 1] := by decide
  have hus : dedup [0, 1] [typeJson "null", typeJson "boolean"] = [0, 1] := by decide
  rw [hos, hus]
  intro i o ho u hu
  have ho := List.mem_of_getElem? ho
  simp only [List.mem_cons, List.not_mem_nil, or_false] at ho hu
  rcases ho with rfl | rfl <;> rcases hu with rfl | rfl <;> exact ⟨_, rfl⟩

/-- The second vertex moves the first one along; two types in another order are paired off. -/
theorem matching_maximum_turned :
    IsGreatest (pairingSizes (Adj [[0, 1], [0]])) 2 ∧
    compareCombined (compare doubles 2) plainTypes turnedTypes [] [] .one .one [0, 1] [0, 1]
      [typeJson "boolean", typeJson "null"] [typeJson "null", typeJson "boolean"] = some [] ∧
    2 ∈ pairingSizes (CanPair (compare doubles 2) plainTypes turnedTypes [] [] .one
      (dedup [0, 1] [typeJson "boolean", typeJson "null"])
      (dedup [0, 1] [typeJson "null", typeJson "boolean"])) := by
  obtain ⟨hmaximum, hreports⟩ := matching_maximum_and_reports
  have hrange : InRange [[0, 1], [0]] 2 := by
    intro l r hadj
    rcases l with _ | _ | l <;> simp [Adj] at hadj <;> omega
  have hnone :
      compareCombined (compare doubles 2) plainTypes turnedTypes [] [] .one .one [0, 1] [0, 1]
      [typeJson "boolean", typeJson "null"] [typeJson "null", typeJson "boolean"] = some [] := by
    decide
  refine ⟨hmaximum [[0, 1], [0]] 2 hrange, hnone, ?_⟩
  obtain ⟨diffs, hdiffs, hiff⟩ := hreports (compare doubles 2) plainTypes turnedTypes []
      [] .one .one
    [0, 1] [0, 1] [typeJson "boolean", typeJson "null"] [typeJson "null", typeJson "boolean"]
    fun _ => pairsEnd_turned
  cases hnone.symm.trans hdiffs
  by_contra hnot
  obtain ⟨d, hd, -⟩ := hiff.mpr ⟨.inl rfl, hnot⟩
  cases hd

end SchemaRegistry.JsonSchema
