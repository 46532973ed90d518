import SchemaRegistry.Model

/-!
Request bodies as the API reads them: beans with coercions, and the checks a rule set goes through
before the registry sees it. Names are unique over the migration and the domain rules together,
and each of the two lists takes its own modes only.
-/

namespace SchemaRegistry.Jackson

/-- What the checks take from the standard library: the character classes, and the text of a
float that is coerced to a string. -/
structure Host where
  isAlphabetic : Char → Bool
  isAlphanumeric : Char → Bool
  floatText : FloatText → String

def bad (msg : String) : ApiError := ⟨400, msg⟩

/-- Jackson's name for a JSON token, as used in its messages. -/
def token : Json → String
  | .null => "JsonToken.VALUE_NULL"
  | .bool true => "JsonToken.VALUE_TRUE"
  | .bool false => "JsonToken.VALUE_FALSE"
  | .number (.float _) => "JsonToken.VALUE_NUMBER_FLOAT"
  | .number (.int _) => "JsonToken.VALUE_NUMBER_INT"
  | .string _ => "JsonToken.VALUE_STRING"
  | .array _ => "JsonToken.START_ARRAY"
  | .object _ => "JsonToken.START_OBJECT"

def kind : Json → String
  | .null => "Null"
  | .bool _ => "Boolean"
  | .number _ => "Number"
  | .string _ => "String"
  | .array _ => "Array"
  | .object _ => "Object"

/-- The text of a number that is coerced to a string. -/
def javaNumber (host : Host) : JsonNumber → String
  | .int i => toString i
  | .float f => host.floatText f

def cannotDeserialize (ty : String) (v : Json) : ApiError :=
  bad ("Cannot deserialize value of type `" ++ ty ++ "` from " ++ kind v ++ " value (token `"
    ++ token v ++ "`)")

/-- A bean: the top level of a body, or a nested object property. -/
def object (v : Json) (ty : String) : ApiResult JsonMap :=
  match v with
  | .object o => .ok o
  | .string s => .error (bad ("Cannot construct instance of `" ++ ty
      ++ "` (although at least one Creator exists): no String-argument constructor/factory method to deserialize from String value ('"
      ++ s ++ "')"))
  | .number n => .error (bad ("Cannot construct instance of `" ++ ty
      ++ "` (although at least one Creator exists): no int/Int-argument constructor/factory method to deserialize from Number value ("
      ++ Json.renderNumber n ++ ")"))
  | v => .error (cannotDeserialize ty v)

/-- An optional nested bean (`null` is absent). -/
def optObject (v : Option Json) (ty : String) : ApiResult (Option JsonMap) :=
  match v with
  | none | some .null => .ok none
  | some v => (object v ty).map some

def string (host : Host) (v : Option Json) : ApiResult (Option String) :=
  match v with
  | none | some .null => .ok none
  | some (.string s) => .ok (some s)
  | some (.bool b) => .ok (some (toString b))
  | some (.number n) => .ok (some (javaNumber host n))
  | some v => .error (cannotDeserialize "String" v)

/-! ### Rule sets -/

def ruleKindValues : List String := ["CONDITION", "TRANSFORM"]
def ruleModes : List String := ["UPGRADE", "DOWNGRADE", "UPDOWN", "WRITE", "READ", "WRITEREAD"]
def migrationModes : List String := ["UPGRADE", "DOWNGRADE", "UPDOWN"]
def domainModes : List String := ["WRITE", "READ", "WRITEREAD"]

/-- A member that is one of the values of an enumeration, if it is there. -/
def enumMember (host : Host) (r : JsonMap) (field : String) (allowed : List String) (ty : String) :
    ApiResult Unit := do
  match ← string host (r.lookup field) with
  | some s =>
      if allowed.contains s then .ok ()
      else .error (bad ("Cannot deserialize value of type `" ++ ty ++ "` from String \"" ++ s
        ++ "\": not one of the values accepted for Enum class: ["
          ++ ", ".intercalate allowed ++ "]"))
  | none => .ok ()

/-- One rule of a rule set. -/
def ruleBean (host : Host) (rule : Json) : ApiResult Unit := do
  match ← optObject (some rule) "Rule" with
  | none => .ok ()
  | some r =>
      enumMember host r "kind" ruleKindValues "RuleKind"
      enumMember host r "mode" ruleModes "RuleMode"

/-- The rules under one name of a rule set. -/
def rulesBean (host : Host) (v : Option Json) : ApiResult Unit :=
  match v with
  | none | some .null => .ok ()
  | some (.array rules) => rules.forM (ruleBean host)
  | some x => .error (cannotDeserialize "ArrayList<Rule>" x)

/-- The `RuleSet` bean: shape and enum values are checked, the rest is kept as sent. -/
def ruleSet (host : Host) (v : Option Json) : ApiResult (Option Json) := do
  match ← optObject v "RuleSet" with
  | none => .ok none
  | some o =>
      ["migrationRules", "domainRules", "encodingRules"].forM fun key => rulesBean host
        (o.lookup key)
      .ok (some (v.getD .null))

/-- A string member of a rule. -/
def stringMember (r : JsonMap) (field : String) : Option String := (r.lookup field).bind Json.asStr

/-- `Rule#validateName`. -/
def ruleName (host : Host) (r : JsonMap) : Except String String :=
  match stringMember r "name" with
  | none => .error "Missing rule name"
  | some name =>
      match name.toList with
      | [] => .error "Empty rule name"
      | first :: rest =>
          if 64 < name.length then .error "Rule name too long"
          else if !host.isAlphabetic first && first != '_' then
            .error ("Illegal initial character in rule name: " ++ name)
          else if rest.any fun c => !(host.isAlphanumeric c || c == '_' || c == '-') then
            .error ("Illegal character in rule name: " ++ name)
          else .ok name

def invalidRuleSet (msg : String) : ApiError := ⟨42210, msg⟩

/-- One of the two lists whose rules are validated. -/
structure RuleList where
  key : String
  modes : List String
  only : String

def migrationRules : RuleList :=
  ⟨"migrationRules", migrationModes, "Migration rules can only be UPGRADE, DOWNGRADE, UPDOWN"⟩

def domainRules : RuleList :=
  ⟨"domainRules", domainModes, "Domain rules can only be WRITE, READ, WRITEREAD"⟩

/-- Only WRITEREAD and UPDOWN may list several actions. -/
def severalActions (r : JsonMap) (mode : Option String) : Bool :=
  mode.any (fun m => m != "WRITEREAD" && m != "UPDOWN")
    && ["onSuccess", "onFailure"].any fun action =>
      (stringMember r action).any fun a => a.toList.contains ','

/-- One rule, after the names seen so far; answers with the names seen then. -/
def validateRule (host : Host) (list : RuleList) (names : List String) (rule : Json) :
    ApiResult (List String) :=
  match rule.asObject with
  | none => .ok names
  | some r =>
      match ruleName host r with
      | .error m => .error (invalidRuleSet m)
      | .ok name =>
          if names.contains name then
            .error (invalidRuleSet ("Found rule with duplicate name '" ++ name ++ "'"))
          else if (stringMember r "type").isNone then .error (invalidRuleSet "Missing rule type")
          else if severalActions r (stringMember r "mode") then
            .error (invalidRuleSet "Multiple actions only valid with WRITEREAD and UPDOWN")
          else if (stringMember r "mode").any fun m => !list.modes.contains m then
            .error (invalidRuleSet list.only)
          else .ok (names ++ [name])

/-- `RuleSet#validate` and `Rule#validate`. -/
def validateRuleSet (host : Host) (ruleSet : Json) : ApiResult Unit :=
  match ruleSet.asObject with
  | none => .ok ()
  | some o => do
      let _ ← [migrationRules, domainRules].foldlM (fun names list =>
        (((o.lookup list.key).bind Json.asArray).getD []).foldlM (validateRule host list) names) []
      .ok ()

end SchemaRegistry.Jackson
