import SchemaRegistry.Caching

/-!
Compatibility levels. A level says which earlier versions a new schema is compared with, the newest
or all of them, and in which direction data must be readable. A check goes from the newest version
to the oldest and stops at the first problem; it reports nothing exactly when every pair the level
asks for can be read.
-/

namespace SchemaRegistry

open Lib

variable {level : CompatibilityLevel}

namespace CompatibilityLevel

variable {α : Type}

/-- The earlier versions, newest first, that a level compares with. -/
def compared (level : CompatibilityLevel) (olds : List α) : List α :=
  if level = .none then [] else if level.transitive then olds else olds.take 1

/-- The level that asks the same of the newest version only. -/
def newestOnly : CompatibilityLevel → CompatibilityLevel
  | .backwardTransitive => .backward
  | .forwardTransitive => .forward
  | .fullTransitive => .full
  | level => level

theorem mem_of_compared {olds : List α} {o : α} (h : o ∈ level.compared olds) : o ∈ olds := by
  unfold compared at h
  split at h
  · cases h
  · split at h
    · exact h
    · exact List.mem_of_mem_take h

theorem mem_compared_newestOnly {olds : List α} {o : α}
    (h : o ∈ level.newestOnly.compared olds) : o ∈ level.compared olds := by
  cases level
  case backwardTransitive | forwardTransitive | fullTransitive => exact List.mem_of_mem_take h
  all_goals exact h

theorem mem_compared_dropLast {olds : List α} {o : α}
    (h : o ∈ level.compared olds.dropLast) : o ∈ level.compared olds := by
  unfold compared at h ⊢
  by_cases hnone : level = .none
  · rw [if_pos hnone] at h
    cases h
  · rw [if_neg hnone] at h ⊢
    by_cases htrans : level.transitive
    · rw [if_pos htrans] at h ⊢
      exact List.mem_of_mem_dropLast h
    · rw [if_neg htrans] at h ⊢
      rw [List.dropLast_eq_take, List.take_take, Nat.min_comm, ← List.take_take] at h
      exact List.mem_of_mem_take h

end CompatibilityLevel

/-- `reader` can read what `writer` wrote. Schemas of different types never can. -/
def CanBeRead (fmt : Formats) (reader writer : ParsedSchema fmt.Inner) (labels : Labels) : Prop :=
  reader.schemaType = writer.schemaType ∧ fmt.canRead reader writer labels = []

/-- What a level asks of a new schema and one earlier one. -/
structure CompatibilityLevel.Allows (fmt : Formats) (level : CompatibilityLevel)
    (new old : ParsedSchema fmt.Inner) : Prop where
  backward : level.readsOld = true → CanBeRead fmt new old ⟨"new", "old"⟩
  forward : level.readByOld = true → CanBeRead fmt old new ⟨"old", "new"⟩

/-! ### One earlier version -/

section OneVersion

variable {fmt : Formats} {new : ParsedSchema fmt.Inner} {p : Previous fmt.Inner}
  {level : CompatibilityLevel}

@[simp] theorem withTrailer_eq_nil {msgs : List String} {append : Bool} :
    withTrailer msgs p append = [] ↔ msgs = [] := by
  unfold withTrailer
  split
  · rfl
  · next h =>
      constructor
      · intro hnil
        exact (List.append_eq_nil_iff.mp hnil).1
      · rintro rfl
        simp at h

theorem checkOne_eq_nil_iff (hlevel : level ≠ .none) :
    checkOne fmt new p level = [] ↔ level.Allows fmt new p.schema := by
  unfold checkOne
  by_cases htype : p.schema.schemaType = new.schemaType
  · rw [if_neg (not_not.mpr htype)]
    have hback : CanBeRead fmt new p.schema ⟨"new", "old"⟩
        ↔ fmt.canRead new p.schema ⟨"new", "old"⟩ = [] := and_iff_right htype.symm
    have hforward : CanBeRead fmt p.schema new ⟨"old", "new"⟩
        ↔ fmt.canRead p.schema new ⟨"old", "new"⟩ = [] := and_iff_right htype
    cases level
    case none => exact absurd rfl hlevel
    all_goals
      simp only [CompatibilityLevel.readsOld, CompatibilityLevel.readByOld, withTrailer_eq_nil,
        List.append_eq_nil_iff, ← hback, ← hforward]
    case backward | backwardTransitive =>
      exact ⟨fun h => ⟨fun _ => h, nofun⟩, fun h => h.backward rfl⟩
    case forward | forwardTransitive =>
      exact ⟨fun h => ⟨nofun, fun _ => h⟩, fun h => h.forward rfl⟩
    case full | fullTransitive =>
      exact ⟨fun h => ⟨fun _ => h.2, fun _ => h.1⟩, fun h => ⟨h.forward rfl, h.backward rfl⟩⟩
  · rw [if_pos htype]
    constructor
    · intro h
      cases h
    · intro h
      -- Every level but NONE asks for one of the two directions.
      cases level
      case none => exact absurd rfl hlevel
      case backward | backwardTransitive | full | fullTransitive =>
        exact absurd (h.backward rfl).1.symm htype
      case forward | forwardTransitive => exact absurd (h.forward rfl).1 htype

theorem checkLevel_eq_nil_iff {previous : List (Previous fmt.Inner)} :
    checkLevel fmt new previous level = []
      ↔ ∀ p ∈ level.compared previous, level.Allows fmt new p.schema := by
  unfold checkLevel CompatibilityLevel.compared
  by_cases hlevel : level = .none
  · simp [hlevel]
  · simp only [if_neg hlevel]
    generalize (if level.transitive then previous else previous.take 1) = candidates
    -- The first problem found is reported, so nothing is reported when there is none.
    cases hfind : (candidates.map fun p => checkOne fmt new p level).find?
        fun msgs => !msgs.isEmpty with
    | none =>
        refine ⟨fun _ p hp => (checkOne_eq_nil_iff hlevel).mp ?_, fun _ => rfl⟩
        simpa using List.find?_eq_none.mp hfind _ (List.mem_map_of_mem hp)
    | some msgs =>
        have hne : msgs ≠ [] := by simpa using List.find?_some hfind
        obtain ⟨p, hp, rfl⟩ := List.mem_map.mp (List.mem_of_find?_eq_some hfind)
        exact ⟨fun h => absurd h hne,
          fun h => absurd ((checkOne_eq_nil_iff hlevel).mpr (h p hp)) hne⟩

end OneVersion

/-! ### The versions of a subject -/

section Versions

variable (srv : Server) (parse : RecordParser srv.fmt.Inner) (ctx : String)
  (new : ParsedSchema srv.fmt.Inner) (cfg : ConfigRecord)

/-- An earlier version still parses, and a level allows the new schema beside it. -/
def AllowedBeside (level : CompatibilityLevel) (o : OldVersion) : Prop :=
  ∃ old, parse ctx o.id o.body = .ok old ∧ level.Allows srv.fmt new old

/-- The check finds nothing to report. -/
def Passes (olds : List OldVersion) (level : CompatibilityLevel) : Prop :=
  checkCompatibility srv parse ctx new olds level cfg = .ok []

variable {srv parse ctx new cfg}

/-- What a level compares with, it compares with. -/
theorem compared_of_length {α β : Type} {xs : List α} {ys : List β}
    (hlevel : level ≠ .none) (h : ys.length = (level.compared xs).length) :
    level.compared ys = ys := by
  unfold CompatibilityLevel.compared at h ⊢
  rw [if_neg hlevel] at h ⊢
  split at h
  · next htrans => rw [if_pos htrans]
  · next htrans =>
      rw [if_neg htrans, List.take_of_length_le]
      rw [h, List.length_take]
      exact Nat.min_le_left 1 _

theorem passes_iff {olds : List OldVersion} :
    Passes srv parse ctx new cfg olds level
      ↔ ∀ o ∈ level.compared olds, AllowedBeside srv parse ctx new level o := by
  unfold Passes checkCompatibility
  by_cases hskip : level = .none ∨ olds = []
  · have hnothing : level.compared olds = [] := by
      obtain rfl | rfl := hskip
      · rfl
      · simp [CompatibilityLevel.compared]
    rw [if_pos (by simpa using hskip), hnothing]
    simp
  · rw [if_neg (by simpa using hskip)]
    push Not at hskip
    have htaken : olds.take (if level.transitive then olds.length else 1)
        = level.compared olds := by
      rw [CompatibilityLevel.compared, if_neg hskip.1]
      split
      · exact List.take_length
      · rfl
    have hstep : ∀ o : OldVersion, AllowedBeside srv parse ctx new level o
        ↔ ∃ p : Previous srv.fmt.Inner, (do
            let parsed ← parse ctx o.id o.body
            .ok (Previous.mk o.version parsed)) = .ok p ∧ level.Allows srv.fmt new p.schema := by
      intro o
      constructor
      · rintro ⟨old, hparse, hallows⟩
        exact ⟨⟨o.version, old⟩, by rw [hparse]; rfl, hallows⟩
      · rintro ⟨p, hp, hallows⟩
        obtain ⟨old, hparse, hp⟩ := bind_eq_ok.mp hp
        cases hp
        exact ⟨old, hparse, hallows⟩
    rw [forall₂_congr fun o _ => hstep o, ← exists_mapM_and_forall]
    simp only [htaken]
    rw [bind_eq_ok]
    refine exists_congr fun previous => and_congr_right fun hprevious => ?_
    rw [← compared_of_length hskip.1 (length_of_mapM hprevious), ← checkLevel_eq_nil_iff,
      compared_of_length hskip.1 (length_of_mapM hprevious)]
    split
    · next hempty => exact iff_of_true rfl (List.isEmpty_iff.mp hempty)
    · next hempty =>
        refine iff_of_false (fun h => ?_) (fun h => hempty (List.isEmpty_iff.mpr h))
        cases List.append_eq_nil_iff.mp (Except.ok.inj h) with
        | intro _ hnil => cases hnil

/-- A level that asks for both directions asks for what two levels of the same reach ask for. -/
theorem passes_iff_both {olds : List OldVersion} {both back ahead : CompatibilityLevel}
    (hfull : both.readsOld = true ∧ both.readByOld = true)
    (hback : back.readsOld = true ∧ back.readByOld = false)
    (hahead : ahead.readsOld = false ∧ ahead.readByOld = true)
    (hreach : back.compared olds = both.compared olds ∧ ahead.compared olds = both.compared olds) :
    Passes srv parse ctx new cfg olds both
      ↔ Passes srv parse ctx new cfg olds back ∧ Passes srv parse ctx new cfg olds ahead := by
  simp only [passes_iff, hreach, ← forall_and]
  refine forall₂_congr fun o _ => ⟨?_, ?_⟩
  · rintro ⟨old, hparse, hallows⟩
    have hreads := hallows.backward hfull.1
    have hread := hallows.forward hfull.2
    exact ⟨⟨old, hparse, fun _ => hreads, by simp [hback.2]⟩,
      ⟨old, hparse, by simp [hahead.1], fun _ => hread⟩⟩
  · rintro ⟨⟨old, hparse, hallows⟩, old', hparse', hallows'⟩
    obtain rfl : old = old' := Except.ok.inj (hparse.symm.trans hparse')
    exact ⟨old, hparse, fun _ => hallows.backward hback.1, fun _ => hallows'.forward hahead.2⟩

theorem allowedBeside_newestOnly {o : OldVersion} (h : AllowedBeside srv parse ctx new level o) :
    AllowedBeside srv parse ctx new level.newestOnly o := by
  obtain ⟨old, hparse, hallows⟩ := h
  exact ⟨old, hparse, by cases level <;> exact ⟨hallows.backward, hallows.forward⟩⟩

/-- Where the cache is coherent, what is read of a version is the parse of its body. -/
theorem passes_coherent_iff {s : Cached srv.fmt} (hs : s.RecordsCoherent) {olds : List OldVersion}
    (holds : ∀ o ∈ olds, s.reg.store.getSchema ctx o.id = some o.body) :
    Passes srv s.parser ctx new cfg olds level
      ↔ ∀ o ∈ level.compared olds, ∃ old, parseRecord srv s.reg.reader ctx o.body = .ok old
        ∧ level.Allows srv.fmt new old := by
  rw [passes_iff]
  refine forall₂_congr fun o ho => ?_
  rw [AllowedBeside, hs ctx o.id o.body (holds o (CompatibilityLevel.mem_of_compared ho))]

/-- A check reports nothing exactly when the earlier versions its level compares with, as
`parse_record` answers, can all be read in the directions the level asks for. Hence the full
levels ask for both of their halves, a level that looks at every version for what it asks of the
newest one, and leaving out the oldest version never makes a check fail. Where the parse cache is
coherent, the versions compared with are those stored. -/
theorem checkCompatibility_exact (srv : Server) (parse : RecordParser srv.fmt.Inner) (ctx : String)
    (new : ParsedSchema srv.fmt.Inner) (cfg : ConfigRecord) (olds : List OldVersion) :
    (∀ level, Passes srv parse ctx new cfg olds level
        ↔ ∀ o ∈ level.compared olds, ∃ old, parse ctx o.id o.body = .ok old
          ∧ (level.readsOld = true → CanBeRead srv.fmt new old ⟨"new", "old"⟩)
          ∧ (level.readByOld = true → CanBeRead srv.fmt old new ⟨"old", "new"⟩))
      ∧ (Passes srv parse ctx new cfg olds .full
        ↔ Passes srv parse ctx new cfg olds .backward ∧ Passes srv parse ctx new cfg olds .forward)
      ∧ (Passes srv parse ctx new cfg olds .fullTransitive
        ↔ Passes srv parse ctx new cfg olds .backwardTransitive
          ∧ Passes srv parse ctx new cfg olds .forwardTransitive)
      ∧ (∀ level, Passes srv parse ctx new cfg olds level →
        Passes srv parse ctx new cfg olds level.newestOnly)
      ∧ (∀ level, Passes srv parse ctx new cfg olds level →
        Passes srv parse ctx new cfg olds.dropLast level)
      ∧ ∀ s : Cached srv.fmt, s.RecordsCoherent →
        (∀ o ∈ olds, s.reg.store.getSchema ctx o.id = some o.body) →
        ∀ level, Passes srv s.parser ctx new cfg olds level
          ↔ ∀ o ∈ level.compared olds, ∃ old, parseRecord srv s.reg.reader ctx o.body = .ok old
            ∧ level.Allows srv.fmt new old := by
  refine ⟨fun level => ?_, ?_, ?_, fun level h => ?_, fun level h => ?_,
    fun s hs holds level => passes_coherent_iff hs holds⟩
  · rw [passes_iff]
    refine forall₂_congr fun o _ => exists_congr fun old => and_congr_right fun _ => ?_
    exact ⟨fun h => ⟨h.backward, h.forward⟩, fun h => ⟨h.1, h.2⟩⟩
  · exact passes_iff_both ⟨rfl, rfl⟩ ⟨rfl, rfl⟩ ⟨rfl, rfl⟩ ⟨rfl, rfl⟩
  · exact passes_iff_both ⟨rfl, rfl⟩ ⟨rfl, rfl⟩ ⟨rfl, rfl⟩ ⟨rfl, rfl⟩
  · rw [passes_iff] at h ⊢
    intro o ho
    exact allowedBeside_newestOnly (h o (CompatibilityLevel.mem_compared_newestOnly ho))
  · rw [passes_iff] at h ⊢
    intro o ho
    exact h o (CompatibilityLevel.mem_compared_dropLast ho)

end Versions

end SchemaRegistry
