import SchemaRegistry.Caching
import SchemaRegistry.Contents

/-!
What the hashes are taken over. Type, text, references, metadata and rules are written one
after the other, each ended by a byte of its own: 0 after a text, 1 after a name. Printed JSON
never holds these bytes and a version number has a fixed width, so the parts come back
whenever the texts and names do not hold the byte that ends them. Nothing keeps a request from
sending one that does, and then two contents, or two lists of resolved references, are hashed
alike.
-/

namespace SchemaRegistry

open Lib

namespace Content

/-- What `fingerprint` feeds to the hash. -/
def hashInput (a : Content) : Bytes :=
  fingerprintInput a.schemaType a.schema a.references a.metadata a.ruleSet

/-- The content with `null` read as absent, as `fingerprint` reads it. -/
def stated (a : Content) : Content :=
  { a with
    metadata := a.metadata.filter fun m => !m.isNull
    ruleSet := a.ruleSet.filter fun r => !r.isNull }

end Content

/-- A reference whose name and subject do not hold the byte that ends them. -/
def SchemaReference.Plain (r : SchemaReference) : Prop := PlainName r.name ∧ PlainName r.subject

instance (r : SchemaReference) : Decidable r.Plain := inferInstanceAs (Decidable (_ ∧ _))

def Content.Plain (a : Content) : Prop := NulFree a.schema ∧ ∀ r ∈ a.references, r.Plain

instance (a : Content) : Decidable a.Plain := inferInstanceAs (Decidable (_ ∧ _))

/-! ### The parts come back -/

theorem PlainName.one_not_mem {name : String} (h : PlainName name) : (1 : UInt8) ∉ utf8 name :=
  not_mem_utf8 (by decide) rfl h

theorem SameLayer.filter_eq {a b : Option Json} (h : SameLayer a b) :
    (a.filter fun m => !m.isNull) = b.filter fun m => !m.isNull := by
  have habsent : ∀ v : Option Json, Absent v → (v.filter fun m => !m.isNull) = none := by
    intro v hv
    cases v with
    | none => rfl
    | some m => simpa [Absent] using hv
  rcases h with rfl | ⟨ha, hb⟩
  · rfl
  · rw [habsent a ha, habsent b hb]

/-- One reference comes back from the bytes it contributes, and what follows it. -/
theorem referenceBytes_append_inj {r r' : SchemaReference} {rest rest' : Bytes} (h : r.Plain)
    (h' : r'.Plain) (heq : referenceBytes r ++ rest = referenceBytes r' ++ rest') :
    r = r' ∧ rest = rest' := by
  simp only [referenceBytes, List.append_assoc, List.singleton_append] at heq
  obtain ⟨hname, heq⟩ := append_sep_inj h.1.one_not_mem h'.1.one_not_mem heq
  obtain ⟨hsubject, heq⟩ := append_sep_inj h.2.one_not_mem h'.2.one_not_mem heq
  -- The version has a fixed width, so the zeros in it do no harm.
  obtain ⟨hversion, heq⟩ := List.append_inj heq (by rw [length_be32, length_be32])
  have hr : r = r' := by
    cases r
    cases r'
    simp only [SchemaReference.mk.injEq]
    exact ⟨utf8_injective hname, utf8_injective hsubject,
      congrArg Int32.ofUInt32 (be32_injective hversion)⟩
  exact ⟨hr, List.tail_eq_of_cons_eq heq⟩

theorem referenceBytes_ne_nil (r : SchemaReference) (rest : Bytes) :
    referenceBytes r ++ rest ≠ [] := by
  simp [referenceBytes]

/-- References come back from the bytes they contribute. -/
theorem referenceBytes_inj {refs refs' : List SchemaReference} (h : ∀ r ∈ refs, r.Plain)
    (h' : ∀ r ∈ refs', r.Plain)
    (heq : refs.flatMap referenceBytes = refs'.flatMap referenceBytes) : refs = refs' := by
  induction refs generalizing refs' with
  | nil =>
    cases refs' with
    | nil => rfl
    | cons r' refs' => exact (referenceBytes_ne_nil _ _ heq.symm).elim
  | cons r refs ih =>
    cases refs' with
    | nil => exact (referenceBytes_ne_nil _ _ heq).elim
    | cons r' refs' =>
      obtain ⟨hr, hrefs⟩ := List.forall_mem_cons.mp h
      obtain ⟨hr', hrefs'⟩ := List.forall_mem_cons.mp h'
      obtain ⟨rfl, hrest⟩ := referenceBytes_append_inj hr hr' heq
      rw [ih hrefs hrefs' hrest]

theorem Content.stated_eq_of_hashInput {a b : Content} (ha : a.Plain) (hb : b.Plain)
    (heq : a.hashInput = b.hashInput) : a.stated = b.stated := by
  unfold Content.hashInput fingerprintInput at heq
  -- Rules and metadata come off at the end, where nothing printed holds the separator.
  obtain ⟨heq, hrules⟩ := sep_append_inj (zero_not_mem_jsonBytes _) (zero_not_mem_jsonBytes _) heq
  obtain ⟨heq, hmeta⟩ := sep_append_inj (zero_not_mem_jsonBytes _) (zero_not_mem_jsonBytes _) heq
  have htyped : utf8 a.schemaType.asStr ++ [if false then 1 else 0]
        ++ (utf8 a.schema ++ 0 :: a.references.flatMap referenceBytes)
      = utf8 b.schemaType.asStr ++ [if false then 1 else 0]
        ++ (utf8 b.schema ++ 0 :: b.references.flatMap referenceBytes) := by
    simpa using heq
  obtain ⟨htype, -, heq⟩ := typeBytes_inj htyped
  obtain ⟨htext, hrefs⟩ := append_sep_inj (zero_not_mem_utf8 ha.1) (zero_not_mem_utf8 hb.1) heq
  simp only [Content.stated, Content.mk.injEq]
  exact ⟨htype, utf8_injective htext, referenceBytes_inj ha.2 hb.2 hrefs,
    (eq_of_jsonBytes hmeta).filter_eq, (eq_of_jsonBytes hrules).filter_eq⟩

/-! ### What the hashes identify -/

/-- Plain contents, plain queries and plain lists of resolved references that are hashed alike
are equal. -/
theorem hash_inputs_identify (a b : Content) (q q' : TextQuery) (refs refs' : List ResolvedRef) :
    (a.Plain → b.Plain → a.hashInput = b.hashInput → a.stated = b.stated)
      ∧ (q.Plain → q'.Plain → q.bytes = q'.bytes → q = q')
      ∧ ((∀ r ∈ refs, r.Plain) → (∀ r ∈ refs', r.Plain) →
        refs.flatMap resolvedBytes = refs'.flatMap resolvedBytes → refs = refs') := by
  refine ⟨?_, ?_, ?_⟩
  · intro ha hb heq
    exact Content.stated_eq_of_hashInput ha hb heq
  · intro hq hq' heq
    exact TextQuery.bytes_inj hq hq' heq
  · intro hrefs hrefs' heq
    exact resolvedBytes_inj hrefs hrefs' heq

/-! ### A name that reads as two references -/

/-- A record that references one version under two names. -/
def twoNames : Content := ⟨.json, "true", [⟨"a", "x", 1⟩, ⟨"b", "x", 1⟩], none, none⟩

/-- The same text with one reference, under a name that spells the end of one reference and
the start of another. -/
def joinedName : Content :=
  ⟨.json, "true", [⟨"a\x01x\x01\x00\x00\x00\x01\x00b", "x", 1⟩], none, none⟩

/-- The text is registered with either list of references. -/
def joinedHistory : List Request :=
  [registerJson "x" "\x7b\x7d",
    plainRequest (.register "y"
      { schema := some "true", schemaType := some "JSON"
        references := some (twoNames.references.map RefIn.ofReference) } false),
    plainRequest (.register "z"
      { schema := some "true", schemaType := some "JSON"
        references := some (joinedName.references.map RefIn.ofReference) } false)]

/-- Two contents that are hashed alike though the second was sent with other references, so that
its subject gets the id, and with it the references, of the first; a text that ends like a
reference, and one reference that ends like two, are taken for those in the parse caches. -/
theorem joined_name_hashed_alike :
    (twoNames.hashInput = joinedName.hashInput ∧ twoNames.references ≠ joinedName.references)
      ∧ (∃ reg, reg = plainRun joinedHistory
        ∧ (reg.rows (.version "." "z" 1)).map (·.id) = some 2
        ∧ (reg.rows (.body "." 2)).map (·.references) = some twoNames.references)
      ∧ (TextQuery.bytes ⟨.avro, "t", [⟨"n", "s"⟩], false⟩
        = TextQuery.bytes ⟨.avro, "t\x00n\x01s", [], false⟩)
      ∧ [⟨"a", "s"⟩, ⟨"b", "s"⟩].flatMap resolvedBytes
        = [⟨"a\x01s\x00b", "s"⟩].flatMap resolvedBytes := by
  refine ⟨⟨by decide, by decide⟩, ⟨_, rfl, by decide⟩, by decide,
    by decide⟩

/-- Plainly written, a list of references is told from its reverse, and one with a reference
from one without. -/
theorem hash_inputs_identify_twoNames :
    twoNames.Plain ∧ twoNames.hashInput ≠ Content.hashInput
        { twoNames with references := twoNames.references.reverse }
      ∧ TextQuery.bytes ⟨.avro, "t", [⟨"n", "s"⟩], false⟩ ≠ TextQuery.bytes ⟨.avro, "t", [], false⟩
      ∧ [⟨"n", "s"⟩].flatMap resolvedBytes ≠ [].flatMap resolvedBytes := by
  obtain ⟨hcontent, htext, hresolved⟩ := hash_inputs_identify twoNames
    { twoNames with references := twoNames.references.reverse } ⟨.avro, "t", [⟨"n", "s"⟩], false⟩
    ⟨.avro, "t", [], false⟩ [⟨"n", "s"⟩] []
  refine ⟨by decide, fun heq => ?_, fun heq => ?_, fun heq => ?_⟩
  · have hstated := hcontent (by decide) (by decide) heq
    exact absurd (congrArg Content.references hstated) (by decide)
  · cases htext (by decide) (by decide) heq
  · cases hresolved (by decide) (by decide) heq

end SchemaRegistry
