import SchemaRegistry.Proto.Termination
import Mathlib.Order.Filter.AtTopBot.Basic
import Mathlib.Order.Filter.Finite

/-!
When a comparison reports nothing incompatible, level by level. Where a difference was found plays
no part in it, so two runs along different paths, or under different stacks, are compared by what
they find for the messages they call for.
-/

namespace SchemaRegistry.Proto

open Lib Filter

/-- A comparison that came to an end and found nothing incompatible. -/
def Clean (found : Option (List Diff)) : Prop :=
  ∃ diffs, found = some diffs ∧ ∀ d ∈ diffs, d.incompatible = false

@[simp] theorem incompatible_add (path : List String) (kind : DiffKind) :
    (Diff.add path kind).incompatible = !DiffKind.compatible.contains kind := rfl

theorem clean_some {diffs : List Diff} :
    Clean (some diffs) ↔ ∀ d ∈ diffs, d.incompatible = false := by
  simp [Clean]

@[simp] theorem clean_nil : Clean (some []) := by simp [clean_some]

@[simp] theorem not_clean_none : ¬ Clean none := by simp [Clean]

@[simp] theorem clean_add (path : List String) (kind : DiffKind) :
    Clean (some [.add path kind]) ↔ kind ∈ DiffKind.compatible := by
  simp [clean_some]

theorem clean_append {x y : Option (List Diff)} :
    Clean (do let a ← x; let b ← y; some (a ++ b)) ↔ Clean x ∧ Clean y := by
  cases x with
  | none => simp
  | some a =>
    cases y with
    | none => simp
    | some b => simp [clean_some, or_imp, forall_and]

theorem clean_collect {α : Type} {xs : List α} {f : α → Option (List Diff)} :
    Clean (collect xs f) ↔ ∀ x ∈ xs, Clean (f x) := by
  induction xs with
  | nil => simp [collect, clean_some]
  | cons x xs ih =>
    rw [collect_cons, clean_append, ih, List.forall_mem_cons]

/-! ### Two runs side by side -/

section Sides

variable {w r : ProtoSchema}

theorem clean_iff_kinds {diffs : List Diff} :
    Clean (some diffs) ↔ ∀ k ∈ diffs.map (·.kind), k ∈ DiffKind.compatible := by
  simp [clean_some, Diff.incompatible]

theorem movedFields_path (path₁ path₂ : List String) (o : w.Msg) (u : r.Msg) :
    (movedFields path₁ o u).1 = (movedFields path₂ o u).1
      ∧ (movedFields path₁ o u).2.map (·.kind) = (movedFields path₂ o u).2.map (·.kind) := by
  have hrun {tags : List UInt32} {oneofs : List (String × List r.Field)}
      {left : List w.Field} {d₁ d₂ : List Diff}
      (hd : d₁.map (·.kind) = d₂.map (·.kind)) :
      (oneofs.foldl (compareMoved path₁ tags) (left, d₁)).1
          = (oneofs.foldl (compareMoved path₂ tags) (left, d₂)).1
        ∧ (oneofs.foldl (compareMoved path₁ tags) (left, d₁)).2.map (·.kind)
          = (oneofs.foldl (compareMoved path₂ tags) (left, d₂)).2.map (·.kind) := by
    induction oneofs generalizing left d₁ d₂ with
    | nil => exact ⟨rfl, hd⟩
    | cons x xs ih =>
      simp only [List.foldl_cons, compareMoved]
      refine ih ?_
      simp only [List.map_append, hd, List.append_cancel_left_eq]
      split
      · rfl
      · split <;> rfl
  exact hrun rfl

theorem clean_compareMessageBody {s : Bool} {n : Nat} {rec : Compare w r} {stack path : List String}
    {o : w.Msg} {u : r.Msg} :
    Clean (compareMessageBody s n rec stack path o u) ↔
      Clean (some (movedFields (w := w) (r := r) [] o u).2)
        ∧ Clean (compareOneofs s n rec stack path o u)
        ∧ Clean
          (compareRegular s n rec stack path o u (movedFields (w := w) (r := r) [] o u).1) := by
  obtain ⟨hleft, hkinds⟩ := movedFields_path (w := w) (r := r) path [] o u
  rw [clean_iff_kinds, ← hkinds, ← clean_iff_kinds, ← hleft, compareMessageBody]
  change Clean (do
      let oneofs ← compareOneofs s n rec stack path o u
      let fields ← compareRegular s n rec stack path o u (movedFields path o u).1
      some ((movedFields path o u).2 ++ oneofs ++ fields)) ↔ _
  cases compareOneofs s n rec stack path o u with
  | none => simp
  | some oneofs =>
    cases compareRegular s n rec stack path o u (movedFields path o u).1 with
    | none => simp
    | some fields => simp [clean_some, or_imp, forall_and]

/-! ### Levels -/

theorem clean_compareMessageTypes {shortcut : Bool} {rec : Compare w r} {stack path : List String}
    {om : w.Msg} {um : r.Msg} :
    Clean (compareMessageTypes shortcut rec stack path om um) ↔
      w.pool.localName om = r.pool.localName um
        ∧ ((shortcut && sameOrigin w r om um) = true ∨
          Clean (rec stack (w.pool.localPath om) om um)) := by
  unfold compareMessageTypes
  split
  · next hne =>
      simp [hne, DiffKind.compatible]
  · next heq =>
      rw [not_ne_iff] at heq
      split
      · next hskip => simp [heq, hskip]
      · next hskip =>
          simp only [heq, hskip, true_and, false_or, Bool.false_eq_true]
          cases rec stack (w.pool.localPath om) om um with
          | none => simp
          | some diffs =>
            simp only [Option.bind_eq_bind, Option.bind_some, clean_some]
            split
            · next hany =>
                obtain ⟨d, hd, hinc⟩ := List.any_eq_true.mp hany
                constructor
                · intro h
                  exact absurd (h d (List.mem_append_left _ hd)) (by simp [hinc])
                · intro h
                  exact absurd (h d hd) (by simp [hinc])
            · exact Iff.rfl

theorem clean_compareScalars {path₁ path₂ : List String} {ol ul : Option Label} {ok uk : ScalarKind}
    (h : Clean (some (compareScalars path₁ ol ul ok uk))) :
    Clean (some (compareScalars path₂ ol ul ok uk)) := by
  unfold compareScalars at h ⊢
  split
  · next hne => simp [hne, DiffKind.compatible] at h
  · next heq =>
      rw [if_neg heq] at h
      split
      · next a b =>
          dsimp only at h
          split
          · next hne =>
              rw [if_pos hne] at h
              exact (clean_add _ _).mpr ((clean_add _ _).mp h)
          · exact clean_nil
      · exact clean_nil

theorem clean_moved {x : Option (List Diff)} {i j : Nat} {path : List String} :
    Clean (do let diffs ← x; some (if i ≠ j then diffs ++ [.add path .messageMoved] else diffs))
      ↔ Clean x := by
  cases x with
  | none => simp
  | some diffs =>
    simp only [Option.bind_eq_bind, Option.bind_some, clean_some]
    split
    · simp [DiffKind.compatible, or_imp, forall_and]
    · exact Iff.rfl

section Transfer

-- Whether the two runs skip types of the same origin, what they find for two messages, under which
-- stacks and along which paths they go.
variable {s₁ s₂ : Bool} {rec₁ rec₂ : Compare w r} {stack₁ stack₂ path₁ path₂ : List String}

/-- What the first run finds clean for two messages of fields, the second does too. -/
def Carries (s₁ s₂ : Bool) (rec₁ rec₂ : Compare w r) (stack₁ stack₂ : List String)
    (om : w.Msg) (um : r.Msg) : Prop :=
  w.pool.localName om = r.pool.localName um →
    ((s₁ && sameOrigin w r om um) = true ∨ Clean (rec₁ stack₁ (w.pool.localPath om) om um)) →
    ((s₂ && sameOrigin w r om um) = true ∨ Clean (rec₂ stack₂ (w.pool.localPath om) om um))

theorem Carries.labelsAndTypes {ot : FieldType w.Msg} {ut : FieldType r.Msg} {ol ul : Option Label}
    (hcarries : ∀ om um, ot.Meets ut om um → Carries s₁ s₂ rec₁ rec₂ stack₁ stack₂ om um)
    (h : Clean (compareLabelsAndTypes s₁ rec₁ stack₁ path₁ ol ul ot ut)) :
    Clean (compareLabelsAndTypes s₂ rec₂ stack₂ path₂ ol ul ot ut) := by
  induction ot generalizing ut ol ul with
  | map ok ov ihk ihv =>
    cases ut with
    | map uk uv =>
      rw [compareLabelsAndTypes, clean_append] at h ⊢
      exact ⟨ihk (fun om um hm => hcarries om um (.key hm)) h.1,
        ihv (fun om um hm => hcarries om um (.value hm)) h.2⟩
    | _ => exact absurd h (by simp [compareLabelsAndTypes, FieldType.kind, DiffKind.compatible])
  | message om =>
    cases ut with
    | message um =>
      rw [compareLabelsAndTypes, clean_compareMessageTypes] at h ⊢
      exact ⟨h.1, hcarries om um (.message om um) h.1 h.2⟩
    | _ => exact absurd h (by simp [compareLabelsAndTypes, FieldType.kind, DiffKind.compatible])
  | scalar s =>
    cases ut with
    | scalar s' => exact clean_compareScalars h
    | enum => exact clean_compareScalars h
    | _ => exact absurd h (by simp [compareLabelsAndTypes, FieldType.kind, DiffKind.compatible])
  | enum =>
    cases ut with
    | scalar s' => exact clean_compareScalars h
    | enum => exact clean_compareScalars h
    | _ => exact absurd h (by simp [compareLabelsAndTypes, FieldType.kind, DiffKind.compatible])

/-- Fields whose types come out as given. -/
theorem clean_compareField {s : Bool} {n : Nat} {rec : Compare w r} {stack path : List String}
    {o : w.Msg} {u : r.Msg} {a : w.Field}
    {b : r.Field} :
    Clean (compareField s n rec stack path o u a b) ↔
      ∃ ot ut, w.pool.fieldType n a = some ot ∧ r.pool.fieldType n b = some ut
        ∧ Clean (compareLabelsAndTypes s rec stack path (w.pool.explicitLabel o a)
          (r.pool.explicitLabel u b) ot ut) := by
  unfold compareField
  cases w.pool.fieldType n a with
  | none => simp
  | some ot =>
    cases r.pool.fieldType n b with
    | none => simp
    | some ut =>
      simp only [Option.bind_eq_bind, Option.bind_some, Option.some.injEq, exists_and_left,
        exists_eq_left']
      cases compareLabelsAndTypes s rec stack path (w.pool.explicitLabel o a)
        (r.pool.explicitLabel u b) ot ut with
      | none => simp
      | some types =>
          simp only [Option.bind_some, clean_some]
          split <;> simp [DiffKind.compatible, or_imp, forall_and]

/-- The same for every two fields that are compared. -/
def CarriesFields (n : Nat) (s₁ s₂ : Bool) (rec₁ rec₂ : Compare w r) (stack₁ stack₂ : List String)
    (o : w.Msg) (u : r.Msg) : Prop :=
  ∀ a b, Compared o u a b → ∀ path₁ path₂, Clean (compareField s₁ n rec₁ stack₁ path₁ o u a b) →
    Clean (compareField s₂ n rec₂ stack₂ path₂ o u a b)

theorem Carries.fields {n : Nat} {o : w.Msg} {u : r.Msg}
    (h : ∀ om um, Leads o u om um → Carries s₁ s₂ rec₁ rec₂ stack₁ stack₂ om um) :
    CarriesFields n s₁ s₂ rec₁ rec₂ stack₁ stack₂ o u := by
  intro a b hab path₁ path₂ hclean
  obtain ⟨ot, ut, hot, hut, htypes⟩ := clean_compareField.mp hclean
  refine clean_compareField.mpr
    ⟨ot, ut, hot, hut, Carries.labelsAndTypes (fun om um hm hname => ?_) htypes⟩
  exact h om um ⟨hname, a, b, ot, ut, hab, Pool.hasType_of_fieldType hot,
    Pool.hasType_of_fieldType hut, hm⟩ hname

namespace CarriesFields

variable {n : Nat} {o : w.Msg} {u : r.Msg}
  (h : CarriesFields n s₁ s₂ rec₁ rec₂ stack₁ stack₂ o u)

include h

theorem oneofs (hclean : Clean (compareOneofs s₁ n rec₁ stack₁ path₁ o u)) :
    Clean (compareOneofs s₂ n rec₂ stack₂ path₂ o u) := by
  rw [compareOneofs, clean_collect] at hclean ⊢
  intro name hname
  replace hclean := hclean name hname
  dsimp only at hclean ⊢
  split at hclean
  · simp [DiffKind.compatible]
  · simp [DiffKind.compatible]
  · next of uf hof huf =>
      rw [compareOneof, clean_collect] at hclean ⊢
      intro tag htag
      replace hclean := hclean tag htag
      dsimp only at hclean ⊢
      split at hclean
      · exact absurd hclean (by simp [DiffKind.compatible])
      · simp [DiffKind.compatible]
      · next a b ha hb =>
          obtain ⟨hao, hbu, hnumber⟩ := find?_numbers ha hb
          exact h a b ⟨hnumber, .inr ⟨name, of, uf, hof, huf, hao, hbu⟩⟩ _ _ hclean
      · exact clean_nil
  · exact clean_nil

theorem regular {left : List w.Field} (hleft : left ⊆ w.pool.regular o)
    (hclean : Clean (compareRegular s₁ n rec₁ stack₁ path₁ o u left)) :
    Clean (compareRegular s₂ n rec₂ stack₂ path₂ o u left) := by
  rw [compareRegular, clean_collect] at hclean ⊢
  intro tag htag
  replace hclean := hclean tag htag
  dsimp only at hclean ⊢
  split at hclean
  · exact (clean_add _ _).mpr ((clean_add _ _).mp hclean)
  · exact (clean_add _ _).mpr ((clean_add _ _).mp hclean)
  · next a b ha hb =>
      obtain ⟨hao, hbu, hnumber⟩ := find?_numbers ha hb
      exact h a b ⟨hnumber, .inl ⟨hleft hao, hbu⟩⟩ _ _ hclean
  · exact clean_nil

theorem body (hclean : Clean (compareMessageBody s₁ n rec₁ stack₁ path₁ o u)) :
    Clean (compareMessageBody s₂ n rec₂ stack₂ path₂ o u) := by
  rw [clean_compareMessageBody] at hclean ⊢
  obtain ⟨hmoved, honeofs, hregular⟩ := hclean
  exact ⟨hmoved, h.oneofs honeofs, h.regular (movedFields_subset [] o u) hregular⟩

end CarriesFields

/-- The messages of one level, in two runs. -/
theorem Clean.types {os : List w.Msg} {us : List r.Msg}
    (hrec : ∀ o u, Paired os us o u → Clean (rec₁ stack₁ (path₁ ++ [(w.pool.message o).name]) o u) →
      Clean (rec₂ stack₂ (path₂ ++ [(w.pool.message o).name]) o u))
    (h : Clean (compareTypes rec₁ stack₁ path₁ os us)) :
    Clean (compareTypes rec₂ stack₂ path₂ os us) := by
  rw [compareTypes, clean_collect] at h ⊢
  intro name hname
  replace h := h name hname
  dsimp only at h ⊢
  split at h
  · exact absurd h (by simp [DiffKind.compatible])
  · simp [DiffKind.compatible]
  · next o i u j ho hu =>
      rw [clean_moved] at h ⊢
      obtain ⟨hou, rfl⟩ := paired_of_find ho hu
      exact hrec o u hou h
  · exact clean_nil

end Transfer

end Sides

/-! ### Whole comparisons -/

section Runs

variable {w r : ProtoSchema}

/-- With enough calls, nothing incompatible is found between two messages. -/
def Passes (s : Bool) (stack path : List String) (o : w.Msg) (u : r.Msg) : Prop :=
  ∀ᶠ n in atTop, Clean (compareMessage s n stack path o u)

theorem clean_compareMessage_succ {s : Bool} {n : Nat} {stack path : List String}
    {o : w.Msg} {u : r.Msg} :
    Clean (compareMessage s (n + 1) stack path o u) ↔
      ((w.pool.message o).fullName ∈ stack
          ∨ Clean (compareMessageBody s n (compareMessage s n)
            (stack ++ [(w.pool.message o).fullName]) path o u))
        ∧ Clean (compareTypes (compareMessage s n) stack path
          (w.pool.named (w.pool.message o).children)
            (r.pool.named (r.pool.message u).children)) := by
  rw [compareMessage, clean_append]
  refine and_congr_left' ?_
  by_cases hmem : (w.pool.message o).fullName ∈ stack
  · simp [hmem]
  · simp [hmem]

/-- What follows when a comparison that comes to an end is clean follows at every large bound. -/
theorem eventually_imp_of_halts {f : Nat → Option (List Diff)} {Q : Nat → Prop} (hf : Halts f)
    (h : (∀ᶠ n in atTop, Clean (f n)) → ∀ᶠ n in atTop, Q n) :
    ∀ᶠ n in atTop, Clean (f n) → Q n := by
  obtain ⟨diffs, k, hk⟩ := hf
  have heq : ∀ᶠ n in atTop, f n = some diffs := eventually_atTop.mpr ⟨k, hk⟩
  by_cases hclean : Clean (some diffs)
  · filter_upwards [h (heq.mono fun n hn => hn ▸ hclean)] with n hn _ using hn
  · filter_upwards [heq] with n hn hcl
    exact absurd (hn ▸ hcl) hclean

theorem eventually_of_succ {P : Nat → Prop} (h : ∀ᶠ n in atTop, P (n + 1)) :
    ∀ᶠ n in atTop, P n := by
  rw [← map_add_atTop_eq_nat 1]
  exact h

/-- The calls of two runs for the types of the fields of two messages, once the bound is large
enough for all the messages there are. -/
theorem eventually_carries {s₁ s₂ : Bool} (hends : FieldsEnd s₁ w r) {stack₁ stack₂ : List String}
    {o : w.Msg} {u : r.Msg} (hmet₁ : Met s₁ stack₁ o u) (hmet₂ : Met s₂ stack₂ o u)
    (hstack : stack₁ ⊆ stack₂) (hnew : (w.pool.message o).fullName ∉ stack₂)
    (hskip : ∀ {om um}, Leads o u om um → (s₁ && sameOrigin w r om um) = true →
      Met s₂ (stack₂ ++ [(w.pool.message o).fullName]) om um →
      (∃ path, Met s₁ [] om um ∧ Passes s₁ [] path om um)
        ∨ ∀ path, Passes s₂ (stack₂ ++ [(w.pool.message o).fullName]) path om um)
    (ih : ∀ (om : w.Msg) {stack path} {um : r.Msg}, Met s₁ stack om um →
      Met s₂ (stack₂ ++ [(w.pool.message o).fullName]) om um →
      stack ⊆ stack₂ ++ [(w.pool.message o).fullName] → Passes s₁ stack path om um →
      Passes s₂ (stack₂ ++ [(w.pool.message o).fullName]) (w.pool.localPath om) om um) :
    ∀ᶠ n in atTop, ∀ om um, Leads o u om um →
      Carries s₁ s₂ (compareMessage s₁ n) (compareMessage s₂ n)
        (stack₁ ++ [(w.pool.message o).fullName])
        (stack₂ ++ [(w.pool.message o).fullName]) om um := by
  refine eventually_all.mpr fun om => eventually_all.mpr fun um => ?_
  by_cases hleads : Leads o u om um
  swap
  · exact Eventually.of_forall fun n h => absurd h hleads
  by_cases hsecond : (s₂ && sameOrigin w r om um) = true
  · exact Eventually.of_forall fun n _ _ _ => .inl hsecond
  have hgo₂ : Met s₂ (stack₂ ++ [(w.pool.message o).fullName]) om um :=
    .field hmet₂ hnew hleads (by simpa using hsecond)
  by_cases hfirst : (s₁ && sameOrigin w r om um) = true
  · have hpass : Passes s₂ (stack₂ ++ [(w.pool.message o).fullName])
        (w.pool.localPath om) om um := by
      rcases hskip hleads hfirst hgo₂ with ⟨path, hgo₁, hpath⟩ | hall
      · exact ih om hgo₁ hgo₂ (List.nil_subset _) hpath
      · exact hall _
    filter_upwards [hpass] with n hn _ _ _ using .inr hn
  · have hgo₁ : Met s₁ (stack₁ ++ [(w.pool.message o).fullName]) om um :=
      .field hmet₁ (fun hmem => hnew (hstack hmem)) hleads (by simpa using hfirst)
    have hsub : stack₁ ++ [(w.pool.message o).fullName]
        ⊆ stack₂ ++ [(w.pool.message o).fullName] := by
      simpa using List.Subset.trans hstack (List.subset_append_left _ _)
    have hcalls := eventually_imp_of_halts (halts_compareMessage hends hgo₁ (w.pool.localPath om))
      (ih om hgo₁ hgo₂ hsub)
    filter_upwards [hcalls] with n hn _ _ hclean
    exact .inr (hn (hclean.resolve_left hfirst))

/-- What one run finds clean a second one does, under a longer stack and along any path, if it does
so for the messages that only the first skips. -/
theorem Passes.transfer {s₁ s₂ : Bool} (hends : FieldsEnd s₁ w r)
    (hskip : ∀ {stack₁ stack₂ o u om um}, Met s₁ stack₁ o u → (w.pool.message o).fullName ∉ stack₁ →
      Leads o u om um → (s₁ && sameOrigin w r om um) = true → Met s₂ stack₂ om um →
      (∃ path, Met s₁ [] om um ∧ Passes s₁ [] path om um) ∨ ∀ path, Passes s₂ stack₂ path om um)
    {stack₁ stack₂ path₁ path₂ : List String} {o : w.Msg} {u : r.Msg}
    (hmet₁ : Met s₁ stack₁ o u) (hmet₂ : Met s₂ stack₂ o u) (hstack : stack₁ ⊆ stack₂)
    (h : Passes s₁ stack₁ path₁ o u) : Passes s₂ stack₂ path₂ o u := by
  refine Pool.stack_induction (motive := fun stack₂ o => ∀ {stack₁ path₁ path₂ u},
    Met s₁ stack₁ o u → Met s₂ stack₂ o u → stack₁ ⊆ stack₂ → Passes s₁ stack₁ path₁ o u →
    Passes s₂ stack₂ path₂ o u) ?_ stack₂ o hmet₁ hmet₂ hstack h
  intro stack₂ o ihfields ihnested stack₁ path₁ path₂ u hmet₁ hmet₂ hstack h
  have hnested : ∀ᶠ n in atTop, ∀ (c : w.Msg) (d : r.Msg),
      Paired (w.pool.named (w.pool.message o).children)
        (r.pool.named (r.pool.message u).children) c d →
      Clean (compareMessage s₁ n stack₁ (path₁ ++ [(w.pool.message c).name]) c d) →
      Clean (compareMessage s₂ n stack₂ (path₂ ++ [(w.pool.message c).name]) c d) := by
    refine eventually_all.mpr fun c => eventually_all.mpr fun d => ?_
    by_cases hcd : Paired (w.pool.named (w.pool.message o).children)
      (r.pool.named (r.pool.message u).children) c d
    · have hmet₁' := hmet₁.nested hcd
      filter_upwards [eventually_imp_of_halts (halts_compareMessage hends hmet₁' _)
        (ihnested c (List.mem_of_mem_filter hcd.1) hmet₁' (hmet₂.nested hcd) hstack)]
        with n hn _ using hn
    · exact Eventually.of_forall fun n h => absurd h hcd
  refine eventually_of_succ ?_
  have hfirst := (tendsto_add_atTop_nat 1).eventually h
  by_cases hnew : (w.pool.message o).fullName ∈ stack₂
  · filter_upwards [hfirst, hnested] with n hn hcalls
    rw [clean_compareMessage_succ] at hn ⊢
    exact ⟨.inl hnew, Clean.types hcalls hn.2⟩
  · have hfields := eventually_carries hends hmet₁ hmet₂ hstack hnew
      (hskip hmet₁ fun hmem => hnew (hstack hmem)) fun om => ihfields hnew om
    filter_upwards [hfirst, hnested, hfields] with n hn hcalls hcarries
    rw [clean_compareMessage_succ] at hn ⊢
    refine ⟨.inr ?_, Clean.types hcalls hn.2⟩
    exact (Carries.fields hcarries).body (hn.1.resolve_left fun hmem => hnew (hstack hmem))

end Runs

end SchemaRegistry.Proto
