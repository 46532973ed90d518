import SchemaRegistry.Names
import SchemaRegistry.Exporter.Destination

/-!
What a reference means to each part of the system. The registry, the exporter, a restore and the
migration tool each have a rule of their own for when the subject of a reference names its context.
The registry and the tools take a leading `:.` for it, the exporter any leading colon, and the
tools start from the printed name of the referrer.
-/

namespace SchemaRegistry

open Lib

/-- What a restore takes the subject of a reference for: one written unqualified is in the
referrer's context. -/
def Backup.qualifyLike (referrer referenced : String) : String :=
  if startsQualified referenced then referenced
  else qualify (QualifiedSubject.parse referrer).context (QualifiedSubject.parse referenced).subject

/-- The subject whose version `migrate` copies for a reference, as it asks the source for it. -/
def Migrate.referenced (subject rs : String) : String :=
  let target := QualifiedSubject.parse rs
  let parent := QualifiedSubject.parse subject
  if startsQualified rs then rs else (⟨parent.context, target.subject⟩ : QualifiedSubject).qualified

/-- What the registry, the exporter, a restore and a migration take a reference of `q` for. -/
structure TargetsAgree (q : QualifiedSubject) (sr : SchemaReference) : Prop where
  exporter : Exporter.exportTarget q.context sr = refTarget q.context sr
  restore : QualifiedSubject.parse (Backup.qualifyLike q.qualified sr.subject)
    = refTarget q.context sr
  migrate : QualifiedSubject.parse (Migrate.referenced q.qualified sr.subject)
    = refTarget q.context sr

/-- The reference names its context; or the referrer's printed name is read as one of its own
context, and a reference that starts with a colon is read as one of that context too. -/
def PlainReference (q : QualifiedSubject) (rs : String) : Prop :=
  startsQualified rs = true ∨ (QualifiedSubject.parse q.qualified).context = q.context
    ∧ (rs.toList.head? = some ':' → (QualifiedSubject.parse rs).context = q.context)

theorem startsQualified_iff {rs : String} :
    startsQualified rs = true ↔ [':', '.'] <+: rs.toList := by
  unfold startsQualified
  split
  · next hrs => simp [hrs]
  · next hrs =>
      refine iff_of_false Bool.false_ne_true ?_
      rintro ⟨rest, hrest⟩
      exact hrs rest hrest.symm

theorem head?_of_startsQualified {rs : String} (h : startsQualified rs = true) :
    rs.toList.head? = some ':' := by
  obtain ⟨rest, hrest⟩ := startsQualified_iff.mp h
  rw [← hrest]
  rfl

section Rules

variable {ctx : String} {sr : SchemaReference} {q : QualifiedSubject}

/-- The exporter looks where the registry does unless a colon that names no context leads it to
another one. -/
theorem exportTarget_eq_iff :
    Exporter.exportTarget ctx sr = refTarget ctx sr ↔ startsQualified sr.subject = true
      ∨ (sr.subject.toList.head? = some ':' → (QualifiedSubject.parse sr.subject).context
        = ctx) := by
  simp only [Exporter.exportTarget, refTarget]
  by_cases hq : startsQualified sr.subject = true
  · simp [hq, head?_of_startsQualified hq]
  · by_cases hcolon : sr.subject.toList.head? = some ':' <;> simp [hcolon, hq]

theorem migrate_referenced_eq (subject rs : String) :
    Migrate.referenced subject rs = Backup.qualifyLike subject rs := rfl

/-- A restore looks where the registry does when the referrer's printed name leads it to the
referrer's context and the name of what is referenced reads back there. -/
theorem restoreTarget_eq_iff (h : startsQualified sr.subject = false) :
    QualifiedSubject.parse (Backup.qualifyLike q.qualified sr.subject) = refTarget q.context sr
      ↔ QualifiedSubject.parse (qualify (QualifiedSubject.parse q.qualified).context
          (QualifiedSubject.parse sr.subject).subject)
        = ⟨q.context, (QualifiedSubject.parse sr.subject).subject⟩ := by
  simp [Backup.qualifyLike, refTarget, h]

/-- A name that is its own subject is in the default context. -/
theorem context_of_subject_eq {raw : String} (h : (QualifiedSubject.parse raw).subject = raw) :
    (QualifiedSubject.parse raw).context = defaultContext := by
  have hreads := reads_parse raw
  generalize QualifiedSubject.parse raw = p at h hreads
  cases hreads with
  | within _ hraw | wildcard hraw =>
    rw [← h, String.toList_ofList] at hraw
    have hlength := congrArg List.length hraw
    simp only [List.length_cons, List.length_append] at hlength
    omega
  | contextOnly _ hraw =>
    rw [← h] at hraw
    cases hraw
  | bare => rfl

/-- A name printed in one context is read as one of another only if that is not its context. -/
theorem context_eq_of_parse_qualify {ctx ctx' subject : String} (hctx : ContextName ctx)
    (h : QualifiedSubject.parse (qualify ctx subject) = ⟨ctx', subject⟩) : ctx = ctx' := by
  by_cases hdefault : ctx = defaultContext
  · rw [hdefault] at h ⊢
    have hbare : qualify defaultContext subject = subject := rfl
    rw [hbare] at h
    have hsubject : (QualifiedSubject.parse subject).subject = subject := by rw [h]
    have hown := context_of_subject_eq hsubject
    rw [h] at hown
    exact hown.symm
  · rw [parse_qualify hctx hdefault] at h
    exact (QualifiedSubject.mk.inj h).1

/-- The subject of a reference that does not name its context is read back in the context of the
referrer. -/
theorem parse_qualify_reference {rs : String} (hctx : ContextName ctx)
    (hq : startsQualified rs = false)
    (hcolon : rs.toList.head? = some ':' → (QualifiedSubject.parse rs).context = ctx) :
    QualifiedSubject.parse (qualify ctx (QualifiedSubject.parse rs).subject)
      = ⟨ctx, (QualifiedSubject.parse rs).subject⟩ := by
  by_cases hdefault : ctx = defaultContext
  · subst hdefault
    refine parse_of_plainSubject ?_
    have hreads := reads_parse rs
    generalize QualifiedSubject.parse rs = p at hcolon hreads
    cases hreads with
    | within _ hraw | contextOnly _ hraw =>
      have hdot : [':', '.'] <+: rs.toList := by simp [hraw]
      rw [startsQualified_iff.mpr hdot] at hq
      cases hq
    | wildcard hraw =>
      have hsame : wildcardContext = defaultContext := hcolon (by simp [hraw])
      exact absurd hsame (by decide)
    | bare hplain => exact hplain
  · exact parse_qualify hctx hdefault

end Rules

/-- The four parts agree on what a reference of a subject means exactly when it names its context,
or the referrer is printed as one of its own context and a leading colon does not lead elsewhere. -/
theorem targets_agree_iff (raw : String) (sr : SchemaReference) :
    TargetsAgree (QualifiedSubject.parse raw) sr
      ↔ PlainReference (QualifiedSubject.parse raw) sr.subject := by
  have hname := contextName_parse raw
  generalize QualifiedSubject.parse raw = q at hname ⊢
  cases hq : startsQualified sr.subject with
  | true =>
    refine iff_of_true ⟨exportTarget_eq_iff.mpr (.inl hq), ?_, ?_⟩ (.inl hq)
    · simp [Backup.qualifyLike, refTarget, hq]
    · simp [migrate_referenced_eq, Backup.qualifyLike, refTarget, hq]
  | false =>
    have hcolon : Exporter.exportTarget q.context sr = refTarget q.context sr
        ↔ (sr.subject.toList.head? = some ':' →
          (QualifiedSubject.parse sr.subject).context = q.context) := by
      simpa [hq] using @exportTarget_eq_iff q.context sr
    constructor
    · intro h
      have hrestore := (restoreTarget_eq_iff hq).mp h.restore
      exact .inr ⟨context_eq_of_parse_qualify (contextName_parse _) hrestore, hcolon.mp h.exporter⟩
    · rintro (h | ⟨hown, hlead⟩)
      · rw [hq] at h
        cases h
      · have hrestore : QualifiedSubject.parse (Backup.qualifyLike q.qualified sr.subject)
            = refTarget q.context sr := by
          rw [restoreTarget_eq_iff hq, hown]
          exact parse_qualify_reference hname hq hlead
        exact ⟨hcolon.mpr hlead, hrestore, hrestore⟩

/-- A subject of another context whose name starts with a colon, and a referrer beside it. -/
def colonHistory : List Request :=
  [registerJson ":.eu::abc" "\x7b\x7d", registerReferring ":.eu:holder" "true" ":abc" 1]

/-- The registry resolves the reference in the referrer's context; the exporter looks for it in
the default one. -/
theorem exporter_looks_elsewhere :
    ∃ reg, reg = plainRun colonHistory
      ∧ (reg.rows (.version ".eu" "holder" 1)).isSome = true
      ∧ refTarget ".eu" ⟨":abc", ":abc", 1⟩ = ⟨".eu", ":abc"⟩
      ∧ Exporter.exportTarget ".eu" ⟨":abc", ":abc", 1⟩ = ⟨".", ":abc"⟩
      ∧ ¬ TargetsAgree (QualifiedSubject.parse ":.eu:holder") ⟨":abc", ":abc", 1⟩ := by
  have hexporter : Exporter.exportTarget ".eu" ⟨":abc", ":abc", 1⟩
      ≠ refTarget ".eu" ⟨":abc", ":abc", 1⟩ := by decide
  refine ⟨_, rfl, by decide, by decide, by decide, fun h => ?_⟩
  exact hexporter h.exporter

end SchemaRegistry
