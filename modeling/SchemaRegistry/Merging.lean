import SchemaRegistry.Lib.Upsert
import SchemaRegistry.Printing
import SchemaRegistry.Effect

/-!
Merging metadata and rules in layers. What a registration stores is the request's or
the previous version's layer between the configured defaults and overrides; put in
the place of that layer, it merges to itself, as long as the values of `sensitive`
are strings and rules are told apart by name. Two contents with the same hash have
the same metadata and rules, where `null` counts as absent.
-/

namespace SchemaRegistry

open Lib

/-! ### Layers -/

/-- A layer that contributes nothing. -/
def Absent (layer : Option Json) : Prop := layer.all Json.isNull = true

instance (layer : Option Json) : Decidable (Absent layer) := inferInstanceAs (Decidable (_ = _))

/-- Layers that are the same, or contribute nothing either of them. -/
def SameLayer (a b : Option Json) : Prop := a = b ∨ Absent a ∧ Absent b

/-- The object under a name in a layer. -/
def memberObject (name : String) (layer : Option Json) : JsonMap :=
  ((layer.bind (·.get? name)).bind Json.asObject).getD []

/-- The array under a name in a layer. -/
def memberArray (name : String) (layer : Option Json) : List Json :=
  ((layer.bind (·.get? name)).bind Json.asArray).getD []

/-- The layers that are there. -/
def presentLayers (layers : List (Option Json)) : List Json :=
  (layers.filterMap id).filter fun v => !v.isNull

theorem presentLayers_cons (layer : Option Json) (layers : List (Option Json)) :
    presentLayers (layer :: layers) = if Absent layer then presentLayers layers
      else layer.toList ++ presentLayers layers := by
  cases layer with
  | none => rfl
  | some v => by_cases hv : v.isNull <;> simp [presentLayers, Absent, hv]

theorem isEmpty_presentLayers (layers : List (Option Json)) :
    (presentLayers layers).isEmpty = true ↔ ∀ layer ∈ layers, Absent layer := by
  induction layers with
  | nil => simp [presentLayers]
  | cons layer layers ih =>
    rw [presentLayers_cons, List.forall_mem_cons, ← ih]
    by_cases habsent : Absent layer
    · simp [habsent]
    · cases layer with
      | none => exact (habsent rfl).elim
      | some v => simp [habsent]

/-- A fold over the layers that are there is a fold over all of them, when an absent layer
changes nothing. -/
theorem foldl_presentLayers {α : Type} {f : α → Json → α} {g : α → Option Json → α}
    (hf : ∀ acc v, f acc v = g acc (some v)) (hg : ∀ acc layer, Absent layer → g acc layer = acc)
    (layers : List (Option Json)) (acc : α) :
    (presentLayers layers).foldl f acc = layers.foldl g acc := by
  induction layers generalizing acc with
  | nil => rfl
  | cons layer layers ih =>
    rw [presentLayers_cons, List.foldl_cons]
    by_cases habsent : Absent layer
    · rw [if_pos habsent, ih, hg acc layer habsent]
    · cases layer with
      | none => exact (habsent rfl).elim
      | some v =>
        rw [if_neg habsent, Option.toList_some, List.singleton_append, List.foldl_cons, hf, ih]

theorem get?_of_absent {layer : Option Json} (h : Absent layer) (name : String) :
    layer.bind (·.get? name) = none := by
  cases layer with
  | none => rfl
  | some v =>
    cases v <;> simp_all [Absent, Json.isNull, Json.get?]

theorem memberObject_of_absent {layer : Option Json} (h : Absent layer) (name : String) :
    memberObject name layer = [] := by
  rw [memberObject, get?_of_absent h]
  rfl

theorem memberArray_of_absent {layer : Option Json} (h : Absent layer) (name : String) :
    memberArray name layer = [] := by
  rw [memberArray, get?_of_absent h]
  rfl

/-! ### Metadata -/

/-- Merged tags or properties of three layers. -/
def mergedObject (name : String) (a b c : Option Json) : JsonMap :=
  upsertAll Prod.fst (upsertAll Prod.fst (upsertAll Prod.fst [] (memberObject name a))
    (memberObject name b)) (memberObject name c)

/-- Values join a set, compared as JSON values. -/
def addValues (acc vs : List Json) : List Json :=
  vs.foldl (fun acc v => if acc.any (Json.eqv v) then acc else acc ++ [v]) acc

def mergedValues (name : String) (a b c : Option Json) : List Json :=
  addValues (addValues (addValues [] (memberArray name a)) (memberArray name b))
    (memberArray name c)

/-- Metadata made of its three members, those that are empty left out. -/
def metadataOf (tags props : JsonMap) (sensitive : List Json) : Json :=
  .object ((if tags.isEmpty then [] else [("tags", .object tags)])
    ++ (if props.isEmpty then [] else [("properties", .object props)])
    ++ (if sensitive.isEmpty then [] else [("sensitive", .array sensitive)]))

/-- A layer's members are put over those so far. -/
def addMembers (name : String) (acc : JsonMap) (m : Json) : JsonMap :=
  match (m.get? name).bind Json.asObject with
  | some t => JsonMap.extend acc t
  | none => acc

/-- A layer's values are added to those so far. -/
def addLayerValues (name : String) (acc : List Json) (m : Json) : List Json :=
  match (m.get? name).bind Json.asArray with
  | some vs => addValues acc vs
  | none => acc

theorem mergeMetadata_eq (a b c : Option Json) :
    mergeMetadata [a, b, c] = if Absent a ∧ Absent b ∧ Absent c then none
      else some (metadataOf (mergedObject "tags" a b c) (mergedObject "properties" a b c)
        (mergedValues "sensitive" a b c)) := by
  have hobject : ∀ name, (presentLayers [a, b, c]).foldl (addMembers name) []
      = mergedObject name a b c := fun name => by
    refine foldl_presentLayers
      (g := fun acc layer => upsertAll Prod.fst acc (memberObject name layer))
      (fun acc v => ?_) (fun acc layer h => ?_) _ _
    · cases hv : (v.get? name).bind Json.asObject <;>
        simp [addMembers, memberObject, hv, JsonMap.extend, upsertAll]
      rfl
    · rw [memberObject_of_absent h]
      rfl
  have hvalues : (presentLayers [a, b, c]).foldl (addLayerValues "sensitive") []
      = mergedValues "sensitive" a b c := by
    refine foldl_presentLayers (g := fun acc layer => addValues acc (memberArray "sensitive" layer))
      (fun acc v => ?_) (fun acc layer h => ?_) _ _
    · cases hv : (v.get? "sensitive").bind Json.asArray <;>
        simp [addLayerValues, memberArray, hv, addValues]
    · rw [memberArray_of_absent h]
      rfl
  have hempty : (presentLayers [a, b, c]).isEmpty = true ↔ Absent a ∧ Absent b ∧ Absent c := by
    rw [isEmpty_presentLayers]
    simp
  unfold mergeMetadata
  rw [← hobject "tags", ← hobject "properties", ← hvalues]
  by_cases h : Absent a ∧ Absent b ∧ Absent c
  · rw [if_pos h]
    exact if_pos (hempty.mpr h)
  · rw [if_neg h]
    exact if_neg fun he => h (hempty.mp he)

section Parts

variable (tags props : JsonMap) (sensitive : List Json)

theorem memberObject_tags : memberObject "tags" (some (metadataOf tags props sensitive))
    = tags := by
  cases tags <;> cases props <;> cases sensitive <;> rfl

theorem memberObject_properties :
    memberObject "properties" (some (metadataOf tags props sensitive)) = props := by
  cases tags <;> cases props <;> cases sensitive <;> rfl

theorem memberArray_sensitive :
    memberArray "sensitive" (some (metadataOf tags props sensitive)) = sensitive := by
  cases tags <;> cases props <;> cases sensitive <;> rfl

theorem not_absent_metadataOf : ¬ Absent (some (metadataOf tags props sensitive)) := nofun

end Parts

theorem eqv_string (s t : String) : Json.eqv (.string s) (.string t) = (s == t) := by
  rw [Json.eqv]

/-- The values of `sensitive` in a layer are strings. -/
def SensitiveStrings (layer : Option Json) : Prop :=
  ∃ names : List String, memberArray "sensitive" layer = names.map Json.string

theorem sensitiveStrings_iff {layer : Option Json} : SensitiveStrings layer ↔
    ∀ v ∈ memberArray "sensitive" layer, v.asStr.isSome = true := by
  constructor
  · rintro ⟨names, hnames⟩ v hv
    rw [hnames] at hv
    obtain ⟨name, -, rfl⟩ := List.mem_map.mp hv
    rfl
  · intro h
    refine ⟨(memberArray "sensitive" layer).filterMap Json.asStr, ?_⟩
    generalize memberArray "sensitive" layer = vs at h
    induction vs with
    | nil => rfl
    | cons v vs ih =>
      obtain ⟨hv, hvs⟩ := List.forall_mem_cons.mp h
      cases v with
      | string s => exact congrArg (Json.string s :: ·) (ih hvs)
      | _ => cases hv

instance (layer : Option Json) : Decidable (SensitiveStrings layer) :=
  decidable_of_iff _ sensitiveStrings_iff.symm

theorem addValues_strings (ks ls : List String) :
    addValues (ks.map Json.string) (ls.map Json.string) = (addKeys ks ls).map Json.string := by
  induction ls generalizing ks with
  | nil => rfl
  | cons l ls ih =>
    have hany : (ks.map Json.string).any (Json.eqv (.string l)) = decide (l ∈ ks) := by
      rw [List.any_map, Bool.eq_iff_iff, List.any_eq_true, decide_eq_true_eq]
      simp [eqv_string]
    rw [addKeys_cons, ← ih, List.map_cons, addValues, List.foldl_cons, hany]
    by_cases hl : l ∈ ks <;> simp [hl, addValues]

theorem mergedValues_again {a b c : Option Json} (ha : SensitiveStrings a)
    (hb : SensitiveStrings b) (hc : SensitiveStrings c) {merged : Option Json}
    (hmerged : memberArray "sensitive" merged = mergedValues "sensitive" a b c) :
    mergedValues "sensitive" a merged c = mergedValues "sensitive" a b c := by
  obtain ⟨as, ha⟩ := ha
  obtain ⟨bs, hb⟩ := hb
  obtain ⟨cs, hc⟩ := hc
  have hvalues : mergedValues "sensitive" a b c
      = (addKeys (addKeys (addKeys [] as) bs) cs).map Json.string := by
    have hnil : ([] : List Json) = ([] : List String).map Json.string := rfl
    rw [mergedValues, ha, hb, hc, hnil, addValues_strings, addValues_strings, addValues_strings]
  have hnil : ([] : List Json) = ([] : List String).map Json.string := rfl
  rw [mergedValues, hmerged, hvalues, ha, hc, hnil, addValues_strings, addValues_strings,
    addValues_strings, addKeys_between]

/-- Merged metadata, put in the place of the layer it was merged from, merges to itself. -/
theorem mergeMetadata_again {a b c : Option Json} (ha : SensitiveStrings a)
    (hb : SensitiveStrings b) (hc : SensitiveStrings c) :
    mergeMetadata [a, mergeMetadata [a, b, c], c] = mergeMetadata [a, b, c] := by
  rw [mergeMetadata_eq a b c]
  by_cases h : Absent a ∧ Absent b ∧ Absent c
  · rw [if_pos h, mergeMetadata_eq, if_pos ⟨h.1, rfl, h.2.2⟩]
  · rw [if_neg h, mergeMetadata_eq, if_neg fun hall => not_absent_metadataOf _ _ _ hall.2.1]
    rw [mergedValues_again ha hb hc (memberArray_sensitive _ _ _)]
    simp only [mergedObject, memberObject_tags, memberObject_properties, upsertAll_between]

/-- An absent layer may be absent in either way. -/
theorem mergeMetadata_congr {b b' : Option Json} (h : SameLayer b b') (a c : Option Json) :
    mergeMetadata [a, b, c] = mergeMetadata [a, b', c] := by
  rcases h with rfl | ⟨hb, hb'⟩
  · rfl
  · simp only [mergeMetadata_eq, mergedObject, mergedValues, memberObject_of_absent hb,
      memberObject_of_absent hb', memberArray_of_absent hb, memberArray_of_absent hb', hb, hb']

theorem metadataProperty_eq (layer : Option Json) (key : String) :
    metadataProperty layer key = (memberObject "properties" layer).lookup key := by
  cases layer with
  | none => rfl
  | some v =>
    have hlayer : ∀ w : Option Json, (w.bind (·.get? key))
        = ((w.bind Json.asObject).getD []).lookup key := fun w => by
      cases w with
      | none => rfl
      | some w => cases w <;> rfl
    exact hlayer (v.get? "properties")

theorem lookup_eq_none_iff {m : JsonMap} {key : String} :
    m.lookup key = none ↔ key ∉ m.map Prod.fst := by
  induction m with
  | nil => simp
  | cons p m ih =>
    by_cases hp : key = p.1
    · simp [hp]
    · have hbeq : (key == p.1) = false := by simpa using hp
      rw [List.lookup_cons, hbeq, List.map_cons, List.mem_cons, not_or]
      exact ⟨fun h => ⟨hp, ih.mp h⟩, fun h => ih.mpr h.2⟩

/-- A property that no layer has is not in the merged metadata. -/
theorem metadataProperty_merge {a b c : Option Json} {key : String}
    (ha : metadataProperty a key = none) (hb : metadataProperty b key = none)
    (hc : metadataProperty c key = none) :
    metadataProperty (mergeMetadata [a, b, c]) key = none := by
  rw [metadataProperty_eq, lookup_eq_none_iff] at ha hb hc ⊢
  rw [mergeMetadata_eq]
  split
  · simp [memberObject]
  · rw [memberObject_properties, mergedObject]
    simp only [map_key_upsertAll, mem_addKeys, List.map_nil, List.not_mem_nil, false_or, not_or]
    exact ⟨⟨ha, hb⟩, hc⟩

/-! ### Rules -/

/-- The name of a rule. -/
def ruleName (rule : Json) : String := ((rule.get? "name").bind Json.asStr).getD ""

def Named (rule : Json) : Prop := ∃ name, rule.get? "name" = some (.string name)

theorem named_iff {rule : Json} :
    Named rule ↔ ((rule.get? "name").bind Json.asStr).isSome = true := by
  constructor
  · rintro ⟨name, hname⟩
    simp [hname, Json.asStr]
  · intro h
    obtain ⟨name, hname⟩ := Option.isSome_iff_exists.mp h
    obtain ⟨v, hv, hstr⟩ := Option.bind_eq_some_iff.mp hname
    cases v <;> cases hstr
    exact ⟨name, hv⟩

instance (rule : Json) : Decidable (Named rule) := decidable_of_iff _ named_iff.symm

theorem Named.get? {rule : Json} (h : Named rule) :
    rule.get? "name" = some (.string (ruleName rule)) := by
  obtain ⟨name, h⟩ := h
  simp [ruleName, h, Json.asStr]

theorem mergeRule_cons (x : Json) (rules : List Json) (rule : Json) :
    mergeRule (x :: rules) rule
      = if (rule.get? "name").isSome && Json.eqvOpt (x.get? "name") (rule.get? "name") then
          rule :: rules
        else x :: mergeRule rules rule := by
  unfold mergeRule
  dsimp only
  rw [List.findIdx?_cons]
  by_cases hsame : ((rule.get? "name").isSome && Json.eqvOpt (x.get? "name") (rule.get? "name"))
      = true
  · rw [if_pos hsame, if_pos hsame]
    rfl
  · rw [if_neg hsame, if_neg hsame]
    cases rules.findIdx? (fun x => (rule.get? "name").isSome
      && Json.eqvOpt (x.get? "name") (rule.get? "name")) <;> rfl

theorem mergeRule_cons_of_named {x rule : Json} (hx : Named x) (hrule : Named rule)
    (rules : List Json) :
    mergeRule (x :: rules) rule
      = if ruleName x = ruleName rule then rule :: rules else x :: mergeRule rules rule := by
  have hhead : ((rule.get? "name").isSome && Json.eqvOpt (x.get? "name") (rule.get? "name"))
      = decide (ruleName x = ruleName rule) := by
    rw [hx.get?, hrule.get?]
    simp [Json.eqvOpt, eqv_string, Bool.beq_eq_decide_eq]
  simp only [mergeRule_cons, hhead, decide_eq_true_eq]

/-- Among named rules with different names, a rule replaces the one of its name. -/
theorem mergeRule_eq_upsert {rules : List Json} {rule : Json} (hrules : ∀ x ∈ rules, Named x)
    (hrule : Named rule) (hnodup : (rules.map ruleName).Nodup) :
    mergeRule rules rule = upsert ruleName rules rule := by
  induction rules with
  | nil => rfl
  | cons x rules ih =>
    obtain ⟨hx, hrules⟩ := List.forall_mem_cons.mp hrules
    obtain ⟨hnot, hnodup⟩ := List.nodup_cons.mp hnodup
    rw [mergeRule_cons_of_named hx hrule]
    by_cases heq : ruleName x = ruleName rule
    · have hrest : rules.map (fun y => if ruleName y = ruleName rule then rule else y)
          = rules := by
        conv_rhs => rw [← List.map_id rules]
        refine List.map_congr_left fun y hy => if_neg fun h => hnot ?_
        rw [heq, ← h]
        exact List.mem_map_of_mem hy
      simp [upsert, heq, hrest]
    · rw [if_neg heq, ih hrules hnodup, upsert, upsert]
      by_cases hany : rules.any (ruleName · == ruleName rule) = true <;> simp [hany, heq]

theorem named_upsertAll {rules more : List Json} (hrules : ∀ x ∈ rules, Named x)
    (hmore : ∀ x ∈ more, Named x) : ∀ x ∈ upsertAll ruleName rules more, Named x := by
  intro x hx
  rcases mem_upsertAll.mp hx with hlast | ⟨hx, -⟩
  · exact hmore x hlast.mem
  · exact hrules x hx

theorem nodup_upsertAll {rules more : List Json} (h : (rules.map ruleName).Nodup) :
    ((upsertAll ruleName rules more).map ruleName).Nodup := by
  rw [map_key_upsertAll]
  exact nodup_addKeys h

theorem foldl_mergeRule {rules more : List Json} (hrules : ∀ x ∈ rules, Named x)
    (hmore : ∀ x ∈ more, Named x) (hnodup : (rules.map ruleName).Nodup) :
    more.foldl mergeRule rules = upsertAll ruleName rules more := by
  induction more generalizing rules with
  | nil => rfl
  | cons rule more ih =>
    obtain ⟨hrule, hmore⟩ := List.forall_mem_cons.mp hmore
    rw [List.foldl_cons, mergeRule_eq_upsert hrules hrule hnodup]
    refine ih ?_ hmore ?_
    · intro x hx
      rcases mem_upsert.mp hx with rfl | ⟨hx, -⟩
      · exact hrule
      · exact hrules x hx
    · exact (nodup_upsertAll hnodup : ((upsertAll ruleName rules [rule]).map ruleName).Nodup)

/-- The kinds of rules, in the order they are stored. -/
def ruleKinds : List String := ["migrationRules", "domainRules", "encodingRules"]

/-- The rules of a layer are named. -/
def RulesNamed (layer : Option Json) : Prop :=
  ∀ kind ∈ ruleKinds, ∀ rule ∈ memberArray kind layer, Named rule

instance (layer : Option Json) : Decidable (RulesNamed layer) :=
  inferInstanceAs (Decidable (∀ kind ∈ ruleKinds, ∀ rule ∈ memberArray kind layer, Named rule))

/-- Merged rules of one kind of three layers. -/
def mergedRules (kind : String) (a b c : Option Json) : List Json :=
  (memberArray kind a ++ memberArray kind b ++ memberArray kind c).foldl mergeRule []

/-- A rule set made of its kinds, those without rules left out. -/
def ruleSetOf (rules : String → List Json) : Json :=
  .object (ruleKinds.filterMap fun kind =>
    if (rules kind).isEmpty then none else some (kind, .array (rules kind)))

theorem get?_ruleSetOf (rules : String → List Json) {kind : String} (hkind : kind ∈ ruleKinds) :
    (ruleSetOf rules).get? kind
      = if (rules kind).isEmpty then none else some (.array (rules kind)) := by
  simp only [ruleKinds, List.mem_cons, List.not_mem_nil, or_false] at hkind
  cases h₁ : rules "migrationRules" <;> cases h₂ : rules "domainRules" <;>
    cases h₃ : rules "encodingRules" <;> rcases hkind with rfl | rfl | rfl <;>
    simp [ruleSetOf, ruleKinds, h₁, h₂, h₃, Json.get?, List.lookup_cons]

theorem memberArray_ruleSetOf (rules : String → List Json) {kind : String}
    (hkind : kind ∈ ruleKinds) : memberArray kind (some (ruleSetOf rules)) = rules kind := by
  rw [memberArray, Option.bind_some, get?_ruleSetOf rules hkind]
  split
  · next h => exact (List.isEmpty_iff.mp h).symm
  · rfl

theorem mergeRuleSets_eq (a b c : Option Json) :
    mergeRuleSets [a, b, c] = if Absent a ∧ Absent b ∧ Absent c then none
      else some (ruleSetOf fun kind => mergedRules kind a b c) := by
  have hrules : ∀ kind, (presentLayers [a, b, c]).flatMap (fun rs =>
      ((rs.get? kind).bind Json.asArray).getD [])
        = memberArray kind a ++ memberArray kind b ++ memberArray kind c := fun kind => by
    have hfold := foldl_presentLayers (f := fun acc rs =>
        acc ++ ((rs.get? kind).bind Json.asArray).getD [])
      (g := fun acc layer => acc ++ memberArray kind layer) (fun acc v => rfl)
      (fun acc layer h => by rw [memberArray_of_absent h, List.append_nil]) [a, b, c] []
    rw [List.foldl_append_eq_append, ← List.flatMap_def] at hfold
    simpa using hfold
  have hempty : (presentLayers [a, b, c]).isEmpty = true ↔ Absent a ∧ Absent b ∧ Absent c := by
    rw [isEmpty_presentLayers]
    simp
  unfold mergeRuleSets
  by_cases h : Absent a ∧ Absent b ∧ Absent c
  · rw [if_pos h]
    exact if_pos (hempty.mpr h)
  · rw [if_neg h]
    simp only [ruleSetOf, mergedRules, ← hrules]
    exact if_neg fun he => h (hempty.mp he)

theorem mergedRules_eq_upsertAll {a b c : Option Json} {kind : String}
    (ha : ∀ rule ∈ memberArray kind a, Named rule) (hb : ∀ rule ∈ memberArray kind b, Named rule)
    (hc : ∀ rule ∈ memberArray kind c, Named rule) :
    mergedRules kind a b c = upsertAll ruleName (upsertAll ruleName
      (upsertAll ruleName [] (memberArray kind a)) (memberArray kind b)) (memberArray kind c) := by
  have hnodup : (([] : List Json).map ruleName).Nodup := List.nodup_nil
  rw [mergedRules, foldl_mergeRule (by simp) ?_ hnodup]
  · simp [upsertAll, List.foldl_append]
  · intro rule hrule
    rcases List.mem_append.mp hrule with hrule | hrule
    · rcases List.mem_append.mp hrule with hrule | hrule
      · exact ha rule hrule
      · exact hb rule hrule
    · exact hc rule hrule

/-- Merged rules, put in the place of the layer they were merged from, merge to themselves. -/
theorem mergeRuleSets_again {a b c : Option Json} (ha : RulesNamed a) (hb : RulesNamed b)
    (hc : RulesNamed c) :
    mergeRuleSets [a, mergeRuleSets [a, b, c], c] = mergeRuleSets [a, b, c] := by
  rw [mergeRuleSets_eq a b c]
  by_cases h : Absent a ∧ Absent b ∧ Absent c
  · rw [if_pos h, mergeRuleSets_eq, if_pos ⟨h.1, rfl, h.2.2⟩]
  · rw [if_neg h, mergeRuleSets_eq, if_neg fun hall => by cases hall.2.1]
    have hkinds : ∀ kind ∈ ruleKinds, mergedRules kind a
        (some (ruleSetOf fun kind => mergedRules kind a b c)) c = mergedRules kind a b c := by
      intro kind hkind
      have hmerged := mergedRules_eq_upsertAll (ha kind hkind) (hb kind hkind) (hc kind hkind)
      have hbetween := memberArray_ruleSetOf (fun kind => mergedRules kind a b c) hkind
      rw [mergedRules_eq_upsertAll (ha kind hkind) ?_ (hc kind hkind), hbetween, hmerged]
      · exact upsertAll_between _ _ _
      · rw [hbetween, hmerged]
        exact named_upsertAll (named_upsertAll (named_upsertAll (by simp) (ha kind hkind))
          (hb kind hkind)) (hc kind hkind)
    unfold ruleSetOf at hkinds ⊢
    congr 2
    exact List.filterMap_congr fun kind hkind => by simp only [hkinds kind hkind]

theorem mergeRuleSets_congr {b b' : Option Json} (h : SameLayer b b') (a c : Option Json) :
    mergeRuleSets [a, b, c] = mergeRuleSets [a, b', c] := by
  rcases h with rfl | ⟨hb, hb'⟩
  · rfl
  · simp only [mergeRuleSets_eq, mergedRules, memberArray_of_absent hb, memberArray_of_absent hb',
      hb, hb']

/-! ### What the content hash says -/

theorem Json.hexDigit_inj {m n : Nat} (h : Json.hexDigit m = Json.hexDigit n) :
    m % 16 = n % 16 := by
  have hall : ∀ i < 16, ∀ j < 16, "0123456789abcdef".toList.getD i '0'
      = "0123456789abcdef".toList.getD j '0' → i = j := by decide
  exact hall (m % 16) (Nat.mod_lt m (by decide)) (n % 16) (Nat.mod_lt n (by decide)) h

theorem hexEncode_injective : Function.Injective hexEncode := by
  intro a b h
  have hchars : a.flatMap (fun x => [Json.hexDigit (x.toNat / 16), Json.hexDigit x.toNat])
      = b.flatMap fun x => [Json.hexDigit (x.toNat / 16), Json.hexDigit x.toNat] := by
    simpa [hexEncode] using congrArg String.toList h
  clear h
  induction a generalizing b with
  | nil =>
    cases b with
    | nil => rfl
    | cons y b => cases hchars
  | cons x a ih =>
    cases b with
    | nil => cases hchars
    | cons y b =>
      simp only [List.flatMap_cons, List.cons_append, List.nil_append, List.cons.injEq] at hchars
      obtain ⟨hhigh, hlow, hrest⟩ := hchars
      have hxy : x = y := by
        have h₁ := Json.hexDigit_inj hhigh
        have h₂ := Json.hexDigit_inj hlow
        have hx := x.toNat_lt
        have hy := y.toNat_lt
        exact UInt8.toNat_inj.mp (by omega)
      rw [hxy, ih hrest]

theorem zero_not_mem_jsonBytes (v : Option Json) : (0 : UInt8) ∉ jsonBytes v := by
  unfold jsonBytes
  split
  · split
    · exact List.not_mem_nil
    · exact zero_not_mem_utf8 (Json.nul_not_mem_render _)
  · exact List.not_mem_nil

theorem utf8_render_ne_nil (v : Json) : utf8 v.render ≠ [] := by
  intro h
  have hempty : v.render = "" := utf8_injective (h.trans (by rfl))
  have hchars : Json.chars v = [] := by rw [← Json.render_toList, hempty]; rfl
  have hne : Json.chars v ++ [']'] ≠ ']' :: [] := Json.chars_append_ne
  exact hne (by rw [hchars]; rfl)

/-- Equal bytes come from equal values, or from two that are absent. -/
theorem eq_of_jsonBytes {a b : Option Json} (h : jsonBytes a = jsonBytes b) :
    SameLayer a b := by
  have hcases : ∀ v : Option Json, Absent v ∧ jsonBytes v = [] ∨
      ∃ m, v = some m ∧ ¬ Absent v ∧ jsonBytes v = utf8 m.render := by
    intro v
    cases v with
    | none => exact .inl ⟨rfl, rfl⟩
    | some m =>
      by_cases hm : m.isNull = true
      · exact .inl ⟨hm, by simp [jsonBytes, hm]⟩
      · exact .inr ⟨m, rfl, hm, by simp [jsonBytes, hm]⟩
  rcases hcases a with ⟨ha, hbytes⟩ | ⟨m, rfl, ha, hbytes⟩ <;>
    rcases hcases b with ⟨hb, hbytes'⟩ | ⟨m', rfl, hb, hbytes'⟩
  · exact .inr ⟨ha, hb⟩
  · rw [hbytes, hbytes'] at h
    exact (utf8_render_ne_nil m' h.symm).elim
  · rw [hbytes, hbytes'] at h
    exact (utf8_render_ne_nil m h).elim
  · rw [hbytes, hbytes'] at h
    exact .inl (congrArg some (Json.render_injective (utf8_injective h)))

/-- Two contents with one fingerprint have the same metadata and rules. -/
theorem same_of_fingerprint {fmt : Formats} (hsha : Function.Injective fmt.sha256)
    {t t' : SchemaType} {text text' : String} {refs refs' : List SchemaReference}
    {m m' rs rs' : Option Json}
    (h : fingerprint fmt t text refs m rs = fingerprint fmt t' text' refs' m' rs') :
    SameLayer m m' ∧ SameLayer rs rs' := by
  have hinput := hsha (hexEncode_injective h)
  obtain ⟨hrest, hrules⟩ := sep_append_inj (zero_not_mem_jsonBytes rs) (zero_not_mem_jsonBytes rs')
    hinput
  obtain ⟨-, hmeta⟩ := sep_append_inj (zero_not_mem_jsonBytes m) (zero_not_mem_jsonBytes m') hrest
  exact ⟨eq_of_jsonBytes hmeta, eq_of_jsonBytes hrules⟩

end SchemaRegistry
