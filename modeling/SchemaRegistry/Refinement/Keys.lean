import SchemaRegistry.Store.Container

/-!
The keys of a container. Names without NUL are recovered from the keys they are
written into, so different rows have different keys; an id or a version has a fixed
width and needs no separator after it.
-/

namespace SchemaRegistry

open Lib

/-- The names in a scope are without NUL. -/
def Scope.NulFree : Scope → Prop
  | .global => True
  | .context ctx => Lib.NulFree ctx
  | .subject ctx name => Lib.NulFree ctx ∧ Lib.NulFree name

/-- The context and the name of a subject are without NUL. -/
def QualifiedSubject.NulFree (q : QualifiedSubject) : Prop :=
  Lib.NulFree q.context ∧ Lib.NulFree q.subject

theorem nulFree_empty : NulFree "" := by decide

theorem nulFree_default : NulFree defaultContext := by decide

theorem nulFree_wildcard : NulFree wildcardContext := by decide

theorem nulFree_ofList {cs : List Char} : NulFree (String.ofList cs) ↔ '\x00' ∉ cs := by
  simp [Lib.NulFree]

theorem nulFree_normalizeParsed {s : String} (h : NulFree s) : NulFree (normalizeParsed s) := by
  unfold normalizeParsed
  split
  · exact nulFree_default
  · exact h

theorem nulFree_parse {raw : String} (h : NulFree raw) :
    (QualifiedSubject.parse raw).NulFree := by
  unfold QualifiedSubject.parse
  split
  · next rest hraw =>
      rw [Lib.NulFree, hraw] at h
      have hrest : '\x00' ∉ rest := fun hmem => h (by simp [hmem])
      split
      · next before after hsplit =>
          have hbefore : _ ∉ before := fun hmem => hrest (mem_of_splitOnce hsplit (.inl hmem))
          have hafter : _ ∉ after := fun hmem => hrest (mem_of_splitOnce hsplit (.inr hmem))
          refine ⟨nulFree_normalizeParsed (nulFree_ofList.mpr ?_), nulFree_ofList.mpr hafter⟩
          simp [hbefore]
      · refine ⟨nulFree_normalizeParsed (nulFree_ofList.mpr ?_), nulFree_empty⟩
        simp [hrest]
  · next rest hraw =>
      rw [Lib.NulFree, hraw] at h
      exact ⟨nulFree_wildcard, nulFree_ofList.mpr fun hmem => h (by simp [hmem])⟩
  · exact ⟨nulFree_default, h⟩

theorem nulFree_normalizeContext {ctx name : String} (h : normalizeContext ctx = some name)
    (hctx : NulFree ctx) : NulFree name := by
  have hdot : NulFree ("." ++ ctx) := by
    simpa [NulFree] using hctx
  unfold normalizeContext at h
  split at h
  · cases h
    exact nulFree_default
  · split at h
    · cases h
      exact nulFree_wildcard
    · simp only [Option.ite_none_right_eq_some, Option.some.injEq] at h
      rw [← h.2]
      split
      · exact hctx
      · exact hdot

section

variable {ctx ctx' subject subject' fp fp' : String} {version version' id id' : UInt32}

/-! ### Decoding -/

theorem splitCtx_append (h : NulFree ctx) (rest : Bytes) :
    splitCtx (utf8 ctx ++ 0 :: rest) = some (ctx, rest) := by
  simp [splitCtx, splitOnce_append (zero_not_mem_utf8 h)]

theorem splitSubjectVersion_append (h : NulFree subject) (version : UInt32) (tail : Bytes) :
    splitSubjectVersion (utf8 subject ++ 0 :: (be32 version ++ tail))
      = some (subject, version, tail) := by
  have hd : (be32 version ++ tail).drop 4 = tail := by
    rw [List.drop_append_of_le_length (by simp), List.drop_of_length_le (by simp), List.nil_append]
  simp [splitSubjectVersion, splitOnce_append (zero_not_mem_utf8 h), hd]

theorem versionKey_eq : versionKey ctx subject version
    = utf8 ctx ++ 0 :: (utf8 subject ++ 0 :: (be32 version ++ [])) := by
  simp [versionKey, subjectPrefix]

theorem refbyKey_eq : refbyKey ctx subject version id
    = utf8 ctx ++ 0 :: (utf8 subject ++ 0 :: (be32 version ++ be32 id)) := by
  simp [refbyKey, versionKey, subjectPrefix]

theorem fromUtf8Lossy_append_nul (s t : String) :
    fromUtf8Lossy (utf8 s ++ 0 :: utf8 t) = s ++ "\x00" ++ t := by
  have h0 : utf8 "\x00" = [0] := by decide
  have : utf8 s ++ 0 :: utf8 t = utf8 (s ++ "\x00" ++ t) := by
    simp [utf8_append, h0]
  rw [this, fromUtf8Lossy_utf8]

theorem Scope.fromKey_key {scope : Scope} (h : scope.NulFree) :
    Scope.fromKey scope.key = some scope := by
  have hG : utf8 "G" = [0x47] := by decide
  have hC : utf8 "C" = [0x43] := by decide
  have hS : utf8 "S" = [0x53] := by decide
  cases scope with
  | global => simp [Scope.key, hG, Scope.fromKey]
  | context ctx => simp [Scope.key, hC, Scope.fromKey]
  | subject ctx name =>
    have hsplit := splitOnce_append h.1 name.toList
    simp [Scope.key, hS, Scope.fromKey, fromUtf8Lossy_append_nul, hsplit]

/-! ### Distinct rows have distinct keys -/

theorem schemaKey_inj : schemaKey ctx id = schemaKey ctx' id' ↔ ctx = ctx' ∧ id = id' := by
  constructor
  · intro h
    have := List.append_inj' h (by simp)
    exact ⟨utf8_injective this.1, be32_injective (List.cons.inj this.2).2⟩
  · rintro ⟨rfl, rfl⟩
    rfl

theorem versionKey_inj (hc : NulFree ctx) (hs : NulFree subject) (hc' : NulFree ctx')
    (hs' : NulFree subject') : versionKey ctx subject version = versionKey ctx' subject' version'
      ↔ ctx = ctx' ∧ subject = subject' ∧ version = version' := by
  constructor
  · intro h
    rw [versionKey_eq, versionKey_eq] at h
    obtain ⟨h1, h2⟩ := append_sep_inj (zero_not_mem_utf8 hc) (zero_not_mem_utf8 hc') h
    obtain ⟨h3, h4⟩ := append_sep_inj (zero_not_mem_utf8 hs) (zero_not_mem_utf8 hs') h2
    exact ⟨utf8_injective h1, utf8_injective h3, be32_injective (by simpa using h4)⟩
  · rintro ⟨rfl, rfl, rfl⟩
    rfl

theorem refbyKey_inj (hc : NulFree ctx) (hs : NulFree subject) (hc' : NulFree ctx')
    (hs' : NulFree subject') :
    refbyKey ctx subject version id = refbyKey ctx' subject' version' id'
      ↔ ctx = ctx' ∧ subject = subject' ∧ version = version' ∧ id = id' := by
  constructor
  · intro h
    obtain ⟨h1, h2⟩ := List.append_inj' h (by simp)
    obtain ⟨rfl, rfl, rfl⟩ := (versionKey_inj hc hs hc' hs').mp h1
    exact ⟨rfl, rfl, rfl, be32_injective h2⟩
  · rintro ⟨rfl, rfl, rfl, rfl⟩
    rfl

theorem fpKey_inj (hc : NulFree ctx) (hc' : NulFree ctx') :
    fpKey ctx fp = fpKey ctx' fp' ↔ ctx = ctx' ∧ fp = fp' := by
  constructor
  · intro h
    obtain ⟨h1, h2⟩ := append_sep_inj (zero_not_mem_utf8 hc) (zero_not_mem_utf8 hc') h
    exact ⟨utf8_injective h1, utf8_injective h2⟩
  · rintro ⟨rfl, rfl⟩
    rfl

theorem Scope.key_inj {scope scope' : Scope} (h : scope.NulFree) (h' : scope'.NulFree) :
    scope.key = scope'.key ↔ scope = scope' := by
  constructor
  · intro heq
    have := congrArg Scope.fromKey heq
    rwa [Scope.fromKey_key h, Scope.fromKey_key h', Option.some.injEq] at this
  · rintro rfl
    rfl

/-! ### Order and scans -/

/-- The byte order of the keys of one subject's versions is the order of the versions. -/
theorem compare_versionKey : compare (versionKey ctx subject version)
    (versionKey ctx subject version') = compare version.toNat version'.toNat := by
  rw [versionKey, versionKey, compare_append_left]
  exact compare_be version.toNat_lt version'.toNat_lt

/-- How `load_snapshot` takes the key of a version or of a referrer apart. -/
def splitRow (k : Bytes) : Option (String × String × UInt32 × Bytes) := do
  let (ctx, rest) ← splitCtx k
  let (subject, version, tail) ← splitSubjectVersion rest
  some (ctx, subject, version, tail)

theorem splitRow_append (hc : NulFree ctx) (hs : NulFree subject) (version : UInt32)
    (tail : Bytes) : splitRow (utf8 ctx ++ 0 :: (utf8 subject ++ 0 :: (be32 version ++ tail)))
      = some (ctx, subject, version, tail) := by
  simp only [splitRow, splitCtx_append hc, splitSubjectVersion_append hs, Option.bind_eq_bind,
    Option.bind_some]

/-- A key that starts like the keys of one subject is no key of another. -/
theorem splitRow_of_prefix (hc : NulFree ctx) (hs : NulFree subject) {k : Bytes}
    (hk : subjectPrefix ctx subject <+: k) {parts : String × String × UInt32 × Bytes}
    (h : splitRow k = some parts) : parts.1 = ctx ∧ parts.2.1 = subject := by
  obtain ⟨tail, rfl⟩ := hk
  have hkey : subjectPrefix ctx subject ++ tail = utf8 ctx ++ 0 :: (utf8 subject ++ 0 :: tail) := by
    simp [subjectPrefix]
  rw [hkey, splitRow, splitCtx_append hc] at h
  simp only [splitSubjectVersion, splitOnce_append (zero_not_mem_utf8 hs), Option.bind_eq_bind,
    Option.bind_some, fromUtf8Lossy_utf8] at h
  cases hv : beU32 tail with
  | none => simp [hv] at h
  | some v =>
    simp only [hv, Option.bind_some, Option.some.injEq] at h
    subst h
    exact ⟨rfl, rfl⟩

/-! ### Keys of `meta` -/

theorem stripPrefix_append (start s : String) : Store.stripPrefix start (start ++ s) = some s := by
  simp [Store.stripPrefix, List.isPrefixOf_iff_prefix]

theorem utf8_append_inj (start s t : String) :
    utf8 (start ++ s) = utf8 (start ++ t) ↔ s = t := by
  constructor
  · intro h
    have := congrArg (Store.stripPrefix start) (utf8_injective h)
    simpa [stripPrefix_append] using this
  · rintro rfl
    rfl

theorem utf8_append_ne {start t : String} (ht : Store.stripPrefix start t = none) (s : String) :
    utf8 (start ++ s) ≠ utf8 t := by
  intro h
  have := congrArg (Store.stripPrefix start) (utf8_injective h)
  simp [stripPrefix_append, ht] at this

theorem stripPrefix_ctx_next : Store.stripPrefix "ctx/" ("next_id/" ++ ctx) = none := by
  simp [Store.stripPrefix, List.isPrefixOf]

theorem ctxKey_inj : ctxKey ctx = ctxKey ctx' ↔ ctx = ctx' := utf8_append_inj "ctx/" ctx ctx'

theorem nextIdKey_inj : nextIdKey ctx = nextIdKey ctx' ↔ ctx = ctx' :=
  utf8_append_inj "next_id/" ctx ctx'

theorem ctxKey_ne_nextIdKey : ctxKey ctx ≠ nextIdKey ctx' := utf8_append_ne stripPrefix_ctx_next ctx

theorem ctxKey_ne_logSeqKey : ctxKey ctx ≠ logSeqKey := utf8_append_ne (by decide) ctx

theorem nextIdKey_ne_logSeqKey : nextIdKey ctx ≠ logSeqKey := utf8_append_ne (by decide) ctx

end

end SchemaRegistry
