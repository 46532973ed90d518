import SchemaRegistry.Api.Jackson
import SchemaRegistry.Merging

/-!
Rule sets after merging. A request's rule set is checked as a whole: no name stands twice in its
migration and domain rules taken together. Merging replaces rules by name within each of the two
lists only, so layers that passed merge to a rule set that passes exactly when no name is used for
a migration rule in one of them and for a domain rule in another.
-/

namespace SchemaRegistry

open Lib

/-! ### Names of merged rules -/

/-- The name of a rule, if it has one that is a string. -/
def ruleNameOf (rule : Json) : Option String := (rule.get? "name").bind Json.asStr

/-- Rules that are told apart by name, or have none at all. -/
def TextName (rule : Json) : Prop :=
  rule.get? "name" = none ∨ Named rule

theorem TextName.get? {rule : Json} (h : TextName rule) :
    rule.get? "name" = (ruleNameOf rule).map .string := by
  obtain h | ⟨name, h⟩ := h
  · simp [ruleNameOf, h]
  · simp [ruleNameOf, h, Json.asStr]

/-- The names of the rules of a list, in order. -/
def namesIn (rules : List Json) : List String := rules.filterMap ruleNameOf

theorem eqvOpt_name {x rule : Json} (hx : TextName x) (hrule : TextName rule) :
    ((rule.get? "name").isSome && Json.eqvOpt (x.get? "name") (rule.get? "name"))
      = decide (∃ name, ruleNameOf rule = some name ∧ ruleNameOf x = some name) := by
  rw [hx.get?, hrule.get?]
  cases ruleNameOf rule with
  | none => simp
  | some name =>
    cases ruleNameOf x with
    | none => simp [Json.eqvOpt]
    | some other => simp [Json.eqvOpt, eqv_string, Bool.beq_eq_decide_eq]

theorem namesIn_cons (x : Json) (rules : List Json) :
    namesIn (x :: rules) = (ruleNameOf x).toList ++ namesIn rules := by
  cases h : ruleNameOf x <;> simp [namesIn, h]

theorem namesIn_mergeRule {rules : List Json} {rule : Json} (hrules : ∀ x ∈ rules, TextName x)
    (hrule : TextName rule) :
    namesIn (mergeRule rules rule) = addKeys (namesIn rules) (ruleNameOf rule).toList := by
  induction rules with
  | nil => cases h : ruleNameOf rule <;> simp [mergeRule, namesIn, addKeys, h]
  | cons x rules ih =>
    obtain ⟨hx, hrules⟩ := List.forall_mem_cons.mp hrules
    have ih := ih hrules
    rw [mergeRule_cons, eqvOpt_name hx hrule, namesIn_cons]
    cases hname : ruleNameOf rule with
    | none =>
      rw [hname] at ih
      simp only [reduceCtorEq, false_and, exists_false, decide_false, Bool.false_eq_true,
        if_false, namesIn_cons, ih]
      rfl
    | some name =>
      rw [hname] at ih
      by_cases hsame : ruleNameOf x = some name
      · -- The rule takes the place of the first one.
        simp [hsame, namesIn_cons, hname, addKeys]
      · have hnot : name ∉ (ruleNameOf x).toList := by simpa using hsame
        simp only [hsame, Option.some.injEq, exists_eq_left', decide_false, Bool.false_eq_true,
          if_false, namesIn_cons, ih]
        by_cases hmem : name ∈ namesIn rules <;> simp [addKeys, hmem, hsame]

theorem mem_of_mem_mergeRule {rules : List Json} {rule x : Json} (h : x ∈ mergeRule rules rule) :
    x ∈ rules ∨ x = rule := by
  induction rules with
  | nil => exact .inr (List.mem_singleton.mp h)
  | cons y rules ih =>
    rw [mergeRule_cons] at h
    split at h
    · obtain h | h := List.mem_cons.mp h
      · exact .inr h
      · exact .inl (List.mem_cons_of_mem y h)
    · obtain h | h := List.mem_cons.mp h
      · exact .inl (List.mem_cons.mpr (.inl h))
      · exact (ih h).imp_left (List.mem_cons_of_mem y)

/-- Merging keeps rules as they are. -/
theorem mem_of_mem_foldl_mergeRule {more rules : List Json} {x : Json}
    (h : x ∈ more.foldl mergeRule rules) : x ∈ rules ∨ x ∈ more := by
  induction more generalizing rules with
  | nil => exact .inl h
  | cons rule more ih =>
    obtain h | h := ih h
    · obtain h | rfl := mem_of_mem_mergeRule h
      · exact .inl h
      · exact .inr List.mem_cons_self
    · exact .inr (List.mem_cons_of_mem rule h)

/-- The names of merged rules are the names merged, each once. -/
theorem namesIn_foldl_mergeRule {more rules : List Json} (hrules : ∀ x ∈ rules, TextName x)
    (hmore : ∀ x ∈ more, TextName x) :
    namesIn (more.foldl mergeRule rules) = addKeys (namesIn rules) (namesIn more) := by
  induction more generalizing rules with
  | nil => rfl
  | cons rule more ih =>
    obtain ⟨hrule, hmore⟩ := List.forall_mem_cons.mp hmore
    have hmerged : ∀ x ∈ mergeRule rules rule, TextName x := by
      intro x hx
      obtain hx | rfl := mem_of_mem_mergeRule hx
      · exact hrules x hx
      · exact hrule
    rw [List.foldl_cons, ih hmerged hmore, namesIn_mergeRule hrules hrule, namesIn_cons,
      addKeys_append]

/-! ### What is accepted -/

namespace Jackson

variable {host : Host} {list : RuleList}

/-- A rule that its list takes, whatever the names beside it. -/
def RuleOk (host : Host) (list : RuleList) (rule : Json) : Prop :=
  ∃ names, validateRule host list [] rule = .ok names

theorem ruleNameOf_of_ruleName {r : JsonMap} {name : String} (h : ruleName host r = .ok name) :
    ruleNameOf (.object r) = some name := by
  unfold ruleName at h
  cases hname : stringMember r "name" with
  | none =>
    rw [hname] at h
    cases h
  | some found =>
    have hfound : found = name := by
      rw [hname] at h
      dsimp only at h
      split at h
      · cases h
      · repeat' (split at h; · cases h)
        exact Except.ok.inj h
    rw [← hfound]
    exact hname

theorem validateRule_eq_ok_iff {names names' : List String} {rule : Json} :
    validateRule host list names rule = .ok names'
      ↔ RuleOk host list rule ∧ (∀ name, ruleNameOf rule = some name → name ∉ names)
        ∧ names' = names ++ (ruleNameOf rule).toList := by
  cases hobj : rule.asObject with
  | none =>
    have hnone : ruleNameOf rule = none := by cases rule <;> first | rfl | cases hobj
    simp [RuleOk, validateRule, hobj, hnone, eq_comm]
  | some r =>
    obtain rfl : rule = .object r := by cases rule <;> cases hobj; rfl
    cases hname : ruleName host r with
    | error m => simp [RuleOk, validateRule, hobj, hname]
    | ok name =>
      have hnameOf := ruleNameOf_of_ruleName hname
      simp only [RuleOk, validateRule, hobj, hname, hnameOf, List.contains_eq_mem,
        decide_eq_true_eq, Option.isNone_iff_eq_none, ite_error_eq_ok, Bool.not_eq_true,
        Except.ok.injEq, List.not_mem_nil, not_false_eq_true, true_and, List.nil_append,
        exists_and_left, exists_eq', and_true, Option.some.injEq, forall_eq', Option.toList_some]
      constructor
      · rintro ⟨hnew, htype, hactions, hmode, rfl⟩
        exact ⟨⟨htype, hactions, hmode⟩, hnew, rfl⟩
      · rintro ⟨⟨htype, hactions, hmode⟩, hnew, rfl⟩
        exact ⟨hnew, htype, hactions, hmode, rfl⟩

theorem RuleOk.textName {rule : Json} (h : RuleOk host list rule) : TextName rule := by
  cases rule
  case object r =>
    cases hname : ruleName host r with
    | error m =>
      obtain ⟨names, h⟩ := h
      simp [validateRule, Json.asObject, hname] at h
    | ok name =>
      refine .inr (named_iff.mpr ?_)
      have hnameOf := ruleNameOf_of_ruleName hname
      rw [ruleNameOf] at hnameOf
      rw [hnameOf]
      rfl
  all_goals exact .inl rfl

/-- A list of rules passes when each rule does and its names are new and all different. -/
theorem foldlM_validateRule {rules : List Json} {names names' : List String} (h : names.Nodup) :
    rules.foldlM (validateRule host list) names = .ok names'
      ↔ (∀ rule ∈ rules, RuleOk host list rule) ∧ (names ++ namesIn rules).Nodup
        ∧ names' = names ++ namesIn rules := by
  induction rules generalizing names with
  | nil => simp [namesIn, h, pure, Except.pure, eq_comm]
  | cons rule rules ih =>
    have hcons : names ++ namesIn (rule :: rules)
        = names ++ (ruleNameOf rule).toList ++ namesIn rules := by
      rw [namesIn_cons, List.append_assoc]
    have hnew : (∀ name, ruleNameOf rule = some name → name ∉ names)
        ↔ (names ++ (ruleNameOf rule).toList).Nodup := by
      cases ruleNameOf rule with
      | none => simp [h]
      | some name =>
        have hlast : (names ++ [name]).Nodup ↔ name ∉ names := by
          rw [List.nodup_append_comm]
          simp [h]
        simp [hlast]
    rw [List.foldlM_cons, bind_eq_ok, List.forall_mem_cons, hcons]
    constructor
    · rintro ⟨names₁, hrule, hrest⟩
      obtain ⟨hok, hfresh, rfl⟩ := validateRule_eq_ok_iff.mp hrule
      obtain ⟨hall, hnodup, hnames⟩ := (ih (hnew.mp hfresh)).mp hrest
      exact ⟨⟨hok, hall⟩, hnodup, hnames⟩
    · rintro ⟨⟨hok, hall⟩, hnodup, hnames⟩
      have hfresh := (List.nodup_append.mp hnodup).1
      exact ⟨_, validateRule_eq_ok_iff.mpr ⟨hok, hnew.mpr hfresh, rfl⟩,
        (ih hfresh).mpr ⟨hall, hnodup, hnames⟩⟩

/-- What validation asks of the rules of an object. -/
structure ValidRules (host : Host) (rules : String → List Json) : Prop where
  migration : ∀ rule ∈ rules "migrationRules", RuleOk host migrationRules rule
  domain : ∀ rule ∈ rules "domainRules", RuleOk host domainRules rule
  nodup : (namesIn (rules "migrationRules") ++ namesIn (rules "domainRules")).Nodup

theorem validateRuleSet_object {v : Json} (h : ∃ o, v = .object o) :
    validateRuleSet host v = .ok () ↔ ValidRules host fun key => memberArray key (some v) := by
  obtain ⟨o, rfl⟩ := h
  have hrun : validateRuleSet host (.object o) = .ok () ↔ ∃ names names',
      (memberArray "migrationRules" (some (.object o))).foldlM (validateRule host migrationRules) []
        = .ok names
      ∧ (memberArray "domainRules" (some (.object o))).foldlM (validateRule host domainRules) names
        = .ok names' := by
    simp only [validateRuleSet, Json.asObject, List.foldlM_cons, List.foldlM_nil, bind_eq_ok]
    constructor
    · rintro ⟨names₂, ⟨names, hmig, names', hdom, -⟩, -⟩
      exact ⟨names, names', hmig, hdom⟩
    · rintro ⟨names, names', hmig, hdom⟩
      exact ⟨names', ⟨names, hmig, names', hdom, rfl⟩, trivial⟩
  rw [hrun]
  constructor
  · rintro ⟨names, names', hmig, hdom⟩
    obtain ⟨hmigration, hnodup, rfl⟩ := (foldlM_validateRule List.nodup_nil).mp hmig
    obtain ⟨hdomain, hnodup, -⟩ := (foldlM_validateRule hnodup).mp hdom
    exact ⟨hmigration, hdomain, hnodup⟩
  · rintro ⟨hmig, hdom, hnodup⟩
    have hfirst := (List.nodup_append.mp hnodup).1
    exact ⟨_, _, (foldlM_validateRule List.nodup_nil).mpr ⟨hmig, hfirst, rfl⟩,
      (foldlM_validateRule hfirst).mpr ⟨hdom, hnodup, rfl⟩⟩

theorem validateRuleSet_ruleSetOf {rules : String → List Json} :
    validateRuleSet host (ruleSetOf rules) = .ok () ↔ ValidRules host rules := by
  have hmig : memberArray "migrationRules" (some (ruleSetOf rules)) = rules "migrationRules" :=
    memberArray_ruleSetOf rules (by decide)
  have hdom : memberArray "domainRules" (some (ruleSetOf rules)) = rules "domainRules" :=
    memberArray_ruleSetOf rules (by decide)
  refine (validateRuleSet_object (v := ruleSetOf rules) ⟨_, rfl⟩).trans ⟨fun h => ?_, fun h => ?_⟩
  · have hnodup := h.nodup
    rw [hmig, hdom] at hnodup
    exact ⟨hmig ▸ h.migration, hdom ▸ h.domain, hnodup⟩
  · refine ⟨hmig.symm ▸ h.migration, hdom.symm ▸ h.domain, ?_⟩
    rw [hmig, hdom]
    exact h.nodup

/-- A rule set that a request could carry: the bean is read, and validation finds nothing. -/
structure Accepted (host : Host) (v : Json) : Prop where
  bean : ruleSet host (some v) = .ok (some v)
  valid : validateRuleSet host v = .ok ()

theorem ruleSet_object {o : JsonMap} :
    ruleSet host (some (.object o)) = .ok (some (.object o))
      ↔ ∀ key ∈ ruleKinds, rulesBean host (o.lookup key) = .ok () := by
  have hrun : ruleSet host (some (.object o)) = (do
      ruleKinds.forM fun key => rulesBean host (o.lookup key)
      .ok (some (.object o))) := rfl
  rw [hrun, bind_eq_ok]
  constructor
  · rintro ⟨u, hall, -⟩
    exact forM_eq_ok.mp hall
  · intro hall
    exact ⟨(), forM_eq_ok.mpr hall, rfl⟩

theorem Accepted.object {v : Json} (h : Accepted host v) : ∃ o, v = .object o := by
  have hbean := h.bean
  cases v
  case object o => exact ⟨o, rfl⟩
  all_goals cases hbean

theorem Accepted.rules {v : Json} (h : Accepted host v) {key : String} (hkey : key ∈ ruleKinds) :
    ∀ rule ∈ memberArray key (some v), ruleBean host rule = .ok () := by
  obtain ⟨o, rfl⟩ := h.object
  have hbean := ruleSet_object.mp h.bean key hkey
  intro rule hrule
  cases hvalue : o.lookup key with
  | none => simp [memberArray, Json.get?, hvalue] at hrule
  | some x =>
    rw [hvalue] at hbean
    cases x
    case array rules =>
      have hmem : rule ∈ rules := by
        simpa [memberArray, Json.get?, hvalue, Json.asArray] using hrule
      exact forM_eq_ok.mp hbean rule hmem
    all_goals simp [memberArray, Json.get?, hvalue, Json.asArray] at hrule

/-- A rule set made of rules that are read is read. -/
theorem ruleSet_ruleSetOf {rules : String → List Json}
    (h : ∀ key ∈ ruleKinds, ∀ rule ∈ rules key, ruleBean host rule = .ok ()) :
    ruleSet host (some (ruleSetOf rules)) = .ok (some (ruleSetOf rules)) := by
  refine ruleSet_object.mpr fun key hkey => ?_
  have hmember := get?_ruleSetOf rules hkey
  rw [ruleSetOf, Json.get?] at hmember
  rw [hmember]
  split
  · rfl
  · exact forM_eq_ok.mpr (h key hkey)

end Jackson

/-! ### Layers -/

open Jackson (Host Accepted)

/-- The rules of one kind in every layer, in order. -/
def gathered (layers : List (Option Json)) (key : String) : List Json :=
  (presentLayers layers).flatMap fun v => memberArray key (some v)

theorem mergeRuleSets_eq_gathered (layers : List (Option Json)) :
    mergeRuleSets layers = if (presentLayers layers).isEmpty then none
      else some (ruleSetOf fun key => (gathered layers key).foldl mergeRule []) := rfl

variable {host : Host} {layers : List (Option Json)}

theorem mem_gathered {key : String} {rule : Json} :
    rule ∈ gathered layers key ↔ ∃ v, some v ∈ layers ∧ rule ∈ memberArray key (some v) := by
  simp only [gathered, presentLayers, List.mem_flatMap, List.mem_filter, List.mem_filterMap, id,
    exists_eq_right]
  refine exists_congr fun v => ?_
  constructor
  · rintro ⟨⟨hmem, -⟩, hrule⟩
    exact ⟨hmem, hrule⟩
  · rintro ⟨hmem, hrule⟩
    refine ⟨⟨hmem, ?_⟩, hrule⟩
    cases v <;> first | rfl | exact absurd hrule List.not_mem_nil

theorem mem_namesIn_gathered {key name : String} :
    name ∈ namesIn (gathered layers key)
      ↔ ∃ v, some v ∈ layers ∧ name ∈ namesIn (memberArray key (some v)) := by
  simp only [namesIn, List.mem_filterMap, mem_gathered]
  constructor
  · rintro ⟨rule, ⟨v, hv, hrule⟩, hname⟩
    exact ⟨v, hv, rule, hrule, hname⟩
  · rintro ⟨v, hv, rule, hrule, hname⟩
    exact ⟨rule, ⟨v, hv, hrule⟩, hname⟩

/-- No name is used for a migration rule and for a domain rule, in one layer or in two. -/
def KindsApart (layers : List (Option Json)) : Prop :=
  ∀ v w, some v ∈ layers → some w ∈ layers →
    ∀ name ∈ namesIn (memberArray "migrationRules" (some v)),
      name ∉ namesIn (memberArray "domainRules" (some w))

/-- Every rule of accepted layers is one that its list takes. -/
theorem ruleOk_of_gathered (h : ∀ v, some v ∈ layers → Accepted host v) :
    (∀ rule ∈ gathered layers "migrationRules", Jackson.RuleOk host Jackson.migrationRules rule)
      ∧ ∀ rule ∈ gathered layers "domainRules", Jackson.RuleOk host Jackson.domainRules rule := by
  constructor
  · intro rule hrule
    obtain ⟨v, hv, hrule⟩ := mem_gathered.mp hrule
    exact ((Jackson.validateRuleSet_object (h v hv).object).mp (h v hv).valid).migration rule hrule
  · intro rule hrule
    obtain ⟨v, hv, hrule⟩ := mem_gathered.mp hrule
    exact ((Jackson.validateRuleSet_object (h v hv).object).mp (h v hv).valid).domain rule hrule

/-- What accepted layers merge to is read as a rule set. -/
theorem ruleSet_merged (h : ∀ v, some v ∈ layers → Accepted host v) :
    let merged := ruleSetOf fun key => (gathered layers key).foldl mergeRule []
    Jackson.ruleSet host (some merged) = .ok (some merged) := by
  refine Jackson.ruleSet_ruleSetOf fun key hkey rule hrule => ?_
  obtain hrule | hrule := mem_of_mem_foldl_mergeRule hrule
  · exact absurd hrule List.not_mem_nil
  · obtain ⟨v, hv, hrule⟩ := mem_gathered.mp hrule
    exact (h v hv).rules hkey rule hrule

theorem namesIn_merged {list : Jackson.RuleList} {rules : List Json}
    (h : ∀ rule ∈ rules, Jackson.RuleOk host list rule) :
    namesIn (rules.foldl mergeRule []) = addKeys [] (namesIn rules) :=
  namesIn_foldl_mergeRule (by simp) fun rule hrule => (h rule hrule).textName

/-- What accepted layers merge to is valid exactly when their names are apart. -/
theorem validateRuleSet_merged_iff (h : ∀ v, some v ∈ layers → Accepted host v) :
    Jackson.validateRuleSet host (ruleSetOf fun key => (gathered layers key).foldl mergeRule [])
        = .ok ()
      ↔ KindsApart layers := by
  obtain ⟨hmig, hdom⟩ := ruleOk_of_gathered h
  have hnames : (namesIn ((gathered layers "migrationRules").foldl mergeRule [])
      ++ namesIn ((gathered layers "domainRules").foldl mergeRule [])).Nodup
        ↔ KindsApart layers := by
    rw [namesIn_merged hmig, namesIn_merged hdom, List.nodup_append]
    simp only [nodup_addKeys List.nodup_nil, true_and, mem_addKeys, List.not_mem_nil, false_or,
      mem_namesIn_gathered]
    constructor
    · intro hne v w hv hw name hname hname'
      exact hne name ⟨v, hv, hname⟩ name ⟨w, hw, hname'⟩ rfl
    · rintro hapart name ⟨v, hv, hname⟩ _ ⟨w, hw, hname'⟩ rfl
      exact hapart v w hv hw name hname hname'
  have hkept : ∀ {key : String} {rule : Json},
      rule ∈ (gathered layers key).foldl mergeRule [] → rule ∈ gathered layers key := by
    intro key rule hrule
    exact (mem_of_mem_foldl_mergeRule hrule).resolve_left List.not_mem_nil
  rw [Jackson.validateRuleSet_ruleSetOf, ← hnames]
  constructor
  · intro hvalid
    exact hvalid.nodup
  · intro hnodup
    exact ⟨fun rule hrule => hmig rule (hkept hrule), fun rule hrule => hdom rule (hkept hrule),
      hnodup⟩

/-- Nothing merges from accepted layers only when there are none. -/
theorem not_mem_of_mergeRuleSets (h : ∀ v, some v ∈ layers → Accepted host v)
    (hnone : mergeRuleSets layers = none) (v : Json) : some v ∉ layers := by
  intro hv
  rw [mergeRuleSets_eq_gathered] at hnone
  split at hnone
  · next hempty =>
      have habsent := (isEmpty_presentLayers layers).mp hempty (some v) hv
      obtain ⟨o, rfl⟩ := (h v hv).object
      cases habsent
  · cases hnone

/-- What a registration is left with are its merged layers. -/
theorem ruleSet_inheritMetadata {cfg : ConfigRecord} {d : Draft} {populated : Bool}
    {previous : Option Entity} {newVersion : UInt32}
    (hlayers : layers = [cfg.defaultRuleSet, d.ruleSet.or (previous.bind (·.ruleSet)),
      cfg.overrideRuleSet])
    (h : ∀ v, some v ∈ layers → Accepted host v) :
    (inheritMetadata cfg d populated previous newVersion).1.ruleSet = mergeRuleSets layers := by
  have hkept : mergeRuleSets layers = none → d.ruleSet = none := by
    intro hnone
    cases hown : d.ruleSet with
    | none => rfl
    | some v => exact absurd (by simp [hlayers, hown]) (not_mem_of_mergeRuleSets h hnone v)
  have hcases : ∀ metadata : Option Json,
      (if metadata.isSome || (mergeRuleSets layers).isSome then
        ({ d with metadata, ruleSet := mergeRuleSets layers }, true)
      else (d, populated)).1.ruleSet = mergeRuleSets layers := by
    intro metadata
    split
    · rfl
    · next hnot =>
        rw [Bool.or_eq_true, not_or, Option.not_isSome_iff_eq_none (o := mergeRuleSets layers)]
          at hnot
        rw [hnot.2]
        exact hkept hnot.2
  rw [hlayers] at hcases ⊢
  exact hcases _

/-- Rule sets that requests could carry merge to one that a request could carry exactly when no
name is used for a migration rule in one of them and for a domain rule in another; and so for what
a version is stored with after it inherited rules and the configured ones were applied. -/
theorem accepted_merged_iff (hlayers : ∀ v, some v ∈ layers → Accepted host v) :
    ((∀ merged, mergeRuleSets layers = some merged → Accepted host merged) ↔ KindsApart layers)
      ∧ ∀ cfg d populated previous newVersion, layers
          = [cfg.defaultRuleSet, d.ruleSet.or (previous.bind (·.ruleSet)), cfg.overrideRuleSet] →
        ((∀ stored, (inheritMetadata cfg d populated previous newVersion).1.ruleSet = some stored →
            Accepted host stored)
          ↔ KindsApart layers) := by
  have hmerged : (∀ merged, mergeRuleSets layers = some merged → Accepted host merged)
      ↔ KindsApart layers := by
    constructor
    · intro hall
      cases hm : mergeRuleSets layers with
      | none =>
        intro v w hv
        exact absurd hv (not_mem_of_mergeRuleSets hlayers hm v)
      | some merged =>
        have hvalid := (hall merged hm).valid
        rw [mergeRuleSets_eq_gathered] at hm
        split at hm
        · cases hm
        · cases hm
          exact (validateRuleSet_merged_iff hlayers).mp hvalid
    · intro hapart merged hm
      rw [mergeRuleSets_eq_gathered] at hm
      split at hm
      · cases hm
      · cases hm
        exact ⟨ruleSet_merged hlayers, (validateRuleSet_merged_iff hlayers).mpr hapart⟩
  refine ⟨hmerged, fun cfg d populated previous newVersion hthree => ?_⟩
  rw [ruleSet_inheritMetadata hthree hlayers]
  exact hmerged

/-! ### Layers that clash, and layers that do not -/

/-- ASCII character classes, and floats by their printed form. -/
def asciiHost : Host := ⟨Char.isAlpha, Char.isAlphanum, FloatText.text⟩

/-- A rule set with one rule. -/
def oneRule (key name mode : String) : Json :=
  .object [(key, .array [.object [("name", .string name), ("type", .string "CEL"),
    ("mode", .string mode)]])]

/-- A configured migration rule and a domain rule of the same name, each fine on its own. -/
theorem rule_named_in_both_lists :
    Accepted asciiHost (oneRule "migrationRules" "mask" "UPGRADE")
      ∧ Accepted asciiHost (oneRule "domainRules" "mask" "WRITE")
      ∧ ∃ merged, mergeRuleSets [some (oneRule "migrationRules" "mask" "UPGRADE"),
          some (oneRule "domainRules" "mask" "WRITE"), none] = some merged
        ∧ ¬ Accepted asciiHost merged := by
  refine ⟨⟨rfl, by decide⟩, ⟨rfl, by decide⟩, _, rfl, fun h => ?_⟩
  exact absurd h.valid (by decide)

/-- A migration rule and a domain rule of different names. -/
theorem accepted_merged_apart :
    KindsApart [some (oneRule "migrationRules" "mask" "UPGRADE"), none,
        some (oneRule "domainRules" "check" "WRITE")]
      ∧ ∃ merged, mergeRuleSets [some (oneRule "migrationRules" "mask" "UPGRADE"), none,
          some (oneRule "domainRules" "check" "WRITE")] = some merged ∧
            Accepted asciiHost merged := by
  have htwo : ∀ v, some v ∈ [some (oneRule "migrationRules" "mask" "UPGRADE"), none,
      some (oneRule "domainRules" "check" "WRITE")] →
      v = oneRule "migrationRules" "mask" "UPGRADE" ∨
        v = oneRule "domainRules" "check" "WRITE" := by
    intro v hv
    simpa using hv
  have hapart : KindsApart [some (oneRule "migrationRules" "mask" "UPGRADE"), none,
      some (oneRule "domainRules" "check" "WRITE")] := by
    intro v w hv hw
    obtain rfl | rfl := htwo v hv <;> obtain rfl | rfl := htwo w hw <;> decide
  have hlayers : ∀ v, some v ∈ [some (oneRule "migrationRules" "mask" "UPGRADE"), none,
      some (oneRule "domainRules" "check" "WRITE")] → Accepted asciiHost v := by
    intro v hv
    obtain rfl | rfl := htwo v hv
    · exact ⟨rfl, by decide⟩
    · exact ⟨rfl, by decide⟩
  exact ⟨hapart, _, rfl, (accepted_merged_iff hlayers).1.mpr hapart _ rfl⟩

end SchemaRegistry
