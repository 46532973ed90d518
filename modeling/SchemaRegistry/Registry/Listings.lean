import SchemaRegistry.Registry.Lookup
import SchemaRegistry.Schema.JavaOrder

/-!
What is in here: the schemas of the subjects under a name, with the subjects that are aliases of
theirs; and what uses an id, by the context the id is looked for in and the subjects of that context
that have a version with it, each with the newest such version.
-/

namespace SchemaRegistry

variable (r : Reader)

def ApiError.schemaIdNotFound (id : UInt32) : ApiError := ⟨40403, s!"Schema {id} not found"⟩

/-- The body of an id in a context, if a subject (the one named) uses it there. -/
def foundIn (ctx : String) (id : UInt32) (name : Option String) : Option SchemaRecord :=
  let usages := r.idUsages ctx id
  let used := match name with
    | none => !usages.isEmpty
    | some n => usages.any fun p => p.1 == n
  if used then r.getSchema ctx id else none

/-- Without a context: where the named subject itself uses the id, the default context first;
else the default context, whichever subject. -/
def foundAnywhere (id : UInt32) (name : Option String) : Option (String × SchemaRecord) :=
  let ctxs := defaultContext :: r.listContexts.filter (· != defaultContext)
  let named := (name.filter (!·.isEmpty)).bind fun n =>
    ctxs.findSome? fun ctx => (foundIn r ctx id (some n)).map (ctx, ·)
  named.or ((foundIn r defaultContext id none).map (defaultContext, ·))

/-- The context that holds an id, with an optional subject as a hint. -/
def locateId (id : UInt32) (subject : Option String) : ApiResult (String × SchemaRecord) :=
  let found := match subject.filter (!·.isEmpty) with
    | none => foundAnywhere r id none
    | some s =>
        let q := QualifiedSubject.parse s
        if startsQualified s && q.context != defaultContext then
          (foundIn r q.context id (if q.subject.isEmpty then none else some q.subject)).map
            (q.context, ·)
        else foundAnywhere r id (some q.subject)
  match found with
  | some place => .ok place
  | none => .error (.schemaIdNotFound id)

/-- A subject that uses an id: the newest version with it, and when the first was registered. -/
structure SubjectUse where
  subject : String
  latest : UInt32
  first : Int
  deriving DecidableEq, Repr

def noteUse (subject : String) (version : UInt32) (ts : Int) : List SubjectUse → List SubjectUse
  | [] => [⟨subject, version, ts⟩]
  | e :: rest =>
      if e.subject = subject then
        { e with latest := max e.latest version, first := min e.first ts } :: rest
      else e :: noteUse subject version ts rest

/-- One use more, if its version is there. -/
def addUse (ctx : String) (uses : List SubjectUse) (p : String × UInt32) : List SubjectUse :=
  match r.getVersion ctx p.1 p.2 with
  | none => uses
  | some vr => noteUse p.1 p.2 vr.ts uses

/-- The subjects of a context that use an id. -/
def usesOf (ctx : String) (id : UInt32) : List SubjectUse :=
  (r.idUsages ctx id).foldl (addUse r ctx) []

/-- In the order of their first use. -/
def SubjectUse.Before (a b : SubjectUse) : Prop :=
  a.first < b.first ∨ a.first = b.first
    ∧ (a.latest < b.latest ∨ a.latest = b.latest ∧ StrLe a.subject b.subject)

instance : DecidableRel SubjectUse.Before := fun _ _ => inferInstanceAs (Decidable (_ ∨ _ ∧ _))

structure SubjectVersion where
  subject : String
  version : UInt32
  deriving DecidableEq, Repr

/-- One line of the listing: a printed name is read back, and its row must be there. -/
def listedUse (ctx : String) (uses : List SubjectUse) (deleted : Bool) (name : String) :
    Option (Option SubjectVersion) :=
  let subject := (QualifiedSubject.parse name).subject
  (uses.find? fun e => e.subject == subject).map fun e =>
    if deleted || (r.getVersion ctx subject e.latest).any (!·.deleted) then some ⟨name, e.latest⟩
    else none

/-- `GET /schemas/ids/{id}/versions`: one entry for each subject. The outer `none` is the panic
of a row that is not there. -/
def idVersions (id : Int) (subject : Option String) (deleted : Bool) :
    Option (ApiResult (List SubjectVersion)) :=
  if 0 < id ∧ id < 2 ^ 32 then
    let uid := UInt32.ofNat id.toNat
    match locateId r uid subject with
    | .error _ => some (.error .schemaNotFound)
    | .ok (ctx, _) =>
        let uses := (usesOf r ctx uid).insertionSort SubjectUse.Before
        let names := chmOrder javaHash (uses.map fun e => qualify ctx e.subject)
        (names.mapM (listedUse r ctx uses deleted)).map fun lines =>
          .ok (lines.filterMap fun line => line)
  else some (.error .schemaNotFound)

/-! ### Schemas and their aliases -/

/-- All subject-level configs, by context and subject. -/
def Reader.subjectConfigs (r : Reader) : List (String × String × ConfigRecord) :=
  r.snap.config.toList.filterMap fun p =>
    match p.1 with
    | .subject ctx subject => some (ctx, subject, p.2)
    | _ => none

/-- The subject that an alias of a subject of `ctx` stands for. -/
def aliasTarget (ctx text : String) : QualifiedSubject :=
  let target := QualifiedSubject.parse text
  if text.toList.head? = some ':' then target else ⟨ctx, target.subject⟩

/-- Note a subject under the target of its alias, if it has one and is asked for. -/
def noteAlias (ctxs : List String) (start : String) (aliases : Std.ExtTreeMap String (List String))
    (p : String × String × ConfigRecord) : Std.ExtTreeMap String (List String) :=
  match p.2.2.«alias».filter fun a => !a.isEmpty with
  | none => aliases
  | some text =>
      if ctxs.contains p.1 && start.toList.isPrefixOf p.2.1.toList then
        let target := (aliasTarget p.1 text).qualified
        aliases.insert target (aliases.getD target [] ++ [qualify p.1 p.2.1])
      else aliases

/-- The target of an alias as it is printed -> the subjects that are aliases of it. -/
def aliasIndex (ctxs : List String) (start : String) : Std.ExtTreeMap String (List String) :=
  r.subjectConfigs.foldl (noteAlias ctxs start) ∅

/-- `RuleSet#hasRulesWithType`: domain or migration rules only. -/
def hasRulesWithType (ruleSet : Option Json) (ty : String) : Bool :=
  ruleSet.any fun rs => ["domainRules", "migrationRules"].any fun k =>
    ((rs.get? k).bind Json.asArray).any fun rules =>
      rules.any fun rule => (rule.get? "type").bind Json.asStr == some ty

structure SchemaView extends Entity where
  /-- Subjects that are aliases of this one. -/
  aliases : Option (List String) := none

/-- By subject, then by version. -/
def SchemaView.Before (a b : SchemaView) : Prop :=
  compare a.subject b.subject = .lt ∨ a.subject = b.subject ∧ a.version ≤ b.version

instance : DecidableRel SchemaView.Before := fun _ _ => inferInstanceAs (Decidable (_ ∨ _ ∧ _))

/-- The schemas of one subject. -/
def schemasOf (aliases : Option (Std.ExtTreeMap String (List String))) (deleted latestOnly : Bool)
    (ruleType : Option String) (q : QualifiedSubject) : ApiResult (List SchemaView) := do
  let versions := (r.listVersions q.context q.subject).filter fun p => deleted || !p.2.deleted
  let chosen := if latestOnly then versions.getLast?.toList else versions
  let entities ← chosen.mapM fun p => entity r q p.1 p.2
  let kept := entities.filter fun e =>
    (ruleType.filter fun t => !t.isEmpty).all fun t => hasRulesWithType e.ruleSet t
  .ok (kept.map fun e =>
    { e with aliases := aliases.bind fun m => m[q.qualified]?.map (·.insertionSort StrLe) })

/-- `GET /schemas`: the subjects under a name, and with `includeAliases` the targets of those that
are aliases, wherever they are. -/
def listSchemas (within : Option String) (deleted latestOnly includeAliases : Bool)
    (ruleType : Option String) : ApiResult (List SchemaView) := do
  let p := match within with
    | some s => QualifiedSubject.parse s
    | none => ⟨wildcardContext, ""⟩
  let ctxs := contextsMatching r p.context
  let aliases := if includeAliases then some (aliasIndex r ctxs p.subject) else none
  let own := ctxs.flatMap fun ctx =>
    ((r.listSubjectNames ctx).filter fun name => p.subject.toList.isPrefixOf name.toList).map
      fun name => (⟨ctx, name⟩ : QualifiedSubject)
  let subjects := ((aliases.getD ∅).keys.map QualifiedSubject.parse).foldl (fun subjects q =>
    if q ∈ subjects then subjects else subjects ++ [q]) own
  let views ← subjects.mapM (schemasOf r aliases deleted latestOnly ruleType)
  .ok (views.flatten.insertionSort SchemaView.Before)

end SchemaRegistry
