import SchemaRegistry.Context
import SchemaRegistry.Lib.Percent

/-!
What a caller may do, and to which subjects. A user holds registry-wide roles and
bindings, each giving one role over a set of subject patterns. A request's path names a
subject, a context, a listing or something global, and that decides which roles count;
listings are not refused but filtered to what the caller may see.
-/

namespace SchemaRegistry.Authz

open Lib

inductive Role where
  | admin
  | write
  | readonly
  deriving DecidableEq, Repr

/-! ### Patterns -/

/-- A `*`-glob: anything, one string, or the parts between `*`s with flags for wildcards at
either end. -/
inductive Glob where
  | any
  | literal (s : String)
  | parts (found : List String) (openStart openEnd : Bool)
  deriving DecidableEq, Repr

/-- What follows the first occurrence of `part`. -/
def afterFirst (part : List Char) : List Char → Option (List Char)
  | [] => if part.isEmpty then some [] else none
  | c :: cs =>
      if part.isPrefixOf (c :: cs) then some ((c :: cs).drop part.length) else afterFirst part cs

/-- What is left of a string once every part has been found in order; an anchored first part
has to start it. -/
def afterParts : Bool → List String → List Char → Option (List Char)
  | _, [], rest => some rest
  | anchored, part :: parts, rest => do
      let rest ←
        if anchored then
          if part.toList.isPrefixOf rest then some (rest.drop part.toList.length) else none
        else afterFirst part.toList rest
      afterParts false parts rest

namespace Glob

def parse (raw : String) : Glob :=
  if raw = "*" then .any
  else if '*' ∉ raw.toList then .literal raw
  else
    .parts (((raw.toList.splitOn '*').filter fun p => !p.isEmpty).map String.ofList)
      (raw.toList.head? == some '*') (raw.toList.getLast? == some '*')

def isAny : Glob → Bool
  | .any => true
  | _ => false

def «matches» : Glob → String → Bool
  | .any, _ => true
  | .literal l, s => l == s
  | .parts found openStart openEnd, s =>
      match afterParts (!openStart) found s.toList with
      | some rest => openEnd || rest.isEmpty
      | none => false

end Glob

/-- One `context::subject` pattern, both sides globbed. -/
structure Pattern where
  context : Glob
  subject : Glob
  deriving DecidableEq, Repr

/-- What stands before and after the first `::`. -/
def splitDoubleColon : List Char → Option (List Char × List Char)
  | ':' :: ':' :: rest => some ([], rest)
  | c :: rest => (splitDoubleColon rest).map fun p => (c :: p.1, p.2)
  | [] => none

namespace Pattern

/-- `".eu::orders-*"`, or `"orders-*"` for the default context. -/
def parse (raw : String) : Except String Pattern :=
  let (ctx, subject) := match splitDoubleColon raw.toList with
    | some (c, s) => (String.ofList c, String.ofList s)
    | none => (defaultContext, raw)
  if subject.isEmpty then .error "no subject part (did you mean '::*'?)"
  else
    -- `.eu`, `eu` and `*` all name a context; `.` is the default one.
    let context :=
      if ctx.isEmpty || ctx == defaultContext then .literal defaultContext
      else if ctx == wildcardContext then .any
      else if ctx.toList.head? == some '.' then Glob.parse ctx
      else Glob.parse ("." ++ ctx)
    .ok ⟨context, Glob.parse subject⟩

def «matches» (p : Pattern) (ctx subject : String) : Bool :=
  p.context.matches ctx && p.subject.matches subject

/-- Whether the pattern covers a whole context, and so reaches its settings. -/
def coversContext (p : Pattern) (ctx : String) : Bool := p.context.matches ctx && p.subject.isAny

end Pattern

/-! ### Callers -/

/-- A user of the configuration file, as far as roles are concerned. -/
structure UserConfig where
  roles : List Role
  bindings : List (Role × List String)

/-- The roles and bindings of an authenticated caller. -/
structure Principal where
  roles : List Role
  bindings : List (Role × List Pattern)

/-- What a request is about, which decides whose roles apply. -/
inductive Target where
  | subject (q : QualifiedSubject)
  /-- A context's own settings, or the context itself. -/
  | context (ctx : String)
  /-- A list whose response is filtered. -/
  | listing
  | global
  deriving DecidableEq, Repr

namespace Principal

/-- A pattern that does not parse grants nothing. -/
def fromUser (u : UserConfig) : Principal where
  roles := u.roles
  bindings := u.bindings.map fun (role, subjects) =>
    (role, subjects.filterMap fun p => (Pattern.parse p).toOption)

/-- The registry-wide roles, and those of the bindings with a pattern that reaches. -/
def rolesWhere (p : Principal) (reaches : Pattern → Bool) : List Role :=
  p.bindings.foldl (fun out (role, patterns) =>
    if role ∉ out && patterns.any reaches then out ++ [role] else out) p.roles

def rolesForSubject (p : Principal) (q : QualifiedSubject) : List Role :=
  p.rolesWhere fun pattern => pattern.matches q.context q.subject

def rolesForContext (p : Principal) (ctx : String) : List Role :=
  p.rolesWhere fun pattern => pattern.coversContext ctx

/-- No bindings, or a registry-wide role. -/
def seesEverything (p : Principal) : Bool := !p.roles.isEmpty || p.bindings.isEmpty

/-- Whether some binding has a pattern that matches. -/
def bound (p : Principal) (ctx subject : String) : Bool :=
  p.bindings.any fun b => b.2.any fun pattern => pattern.matches ctx subject

def canSeeSubject (p : Principal) (ctx subject : String) : Bool :=
  p.seesEverything || p.bound ctx subject

def hasAnyRole (p : Principal) : Bool := !p.roles.isEmpty || !p.bindings.isEmpty

def hasRoleAnywhere (p : Principal) (role : Role) : Bool :=
  role ∈ p.roles || p.bindings.any fun b => b.1 == role

end Principal

/-! ### Paths -/

def space : UInt8 := 0x20

/-- A `+` reads as a space; bytes that are no text become U+FFFD. -/
def percentDecode (s : String) : String := fromUtf8Lossy (unescape space (utf8 s))

/-- The bytes a path segment may hold as they are. -/
def unreserved (b : UInt8) : Bool :=
  alphanumeric b || b ∈ [0x2D, 0x5F, 0x2E, 0x7E, 0x3A]

def percentEncodeSegment (s : String) : String := escapeText unreserved s

/-- `trim_matches('/')`. -/
def trimSlashes (l : List Char) : List Char :=
  ((l.dropWhile (· == '/')).reverse.dropWhile (· == '/')).reverse

/-- `path.trim_matches('/').split('/')`. -/
def segments (path : String) : List String :=
  ((trimSlashes path.toList).splitOn '/').map String.ofList

/-- `/subjects/...` takes only a subject, even when the name is degenerate. -/
def subjectOnly (raw : String) : Target := .subject (QualifiedSubject.parse (percentDecode raw))

/-- `/config/{x}` and `/mode/{x}` take a subject or a context. -/
def subjectOrContext (raw : String) : Target :=
  let q := QualifiedSubject.parse (percentDecode raw)
  if q.isContextOnly then .context q.context else .subject q

/-- The subject, context or listing a path is about. -/
def targetOf (path : String) : Target :=
  match segments path with
  | ["subjects"] | ["schemas"] | ["contexts"] => .listing
  | ["schemas", "ids", _, "subjects"] | ["schemas", "ids", _, "versions"] => .listing
  | ["metrics"] => .global
  | ["admin"] | ["admin", ""] | ["admin", "api", "overview"] | ["admin", "api", "backup"]
  | ["admin", "api", "restore"] => .listing
  | "_admin" :: _ => .listing
  | "subjects" :: s :: _ => subjectOnly s
  | "compatibility" :: "subjects" :: s :: _ => subjectOnly s
  | "config" :: s :: _ | "mode" :: s :: _ => subjectOrContext s
  | "contexts" :: c :: _ => .context ((normalizeContext (percentDecode c)).getD "")
  | "admin" :: "api" :: "subjects" :: s :: _ => subjectOnly s
  | _ => .global

/-! ### The decision -/

inductive Method where
  | get
  | head
  | options
  | post
  | put
  | delete
  | other (name : String)
  deriving DecidableEq, Repr

def startsWith (path start : String) : Bool := start.toList.isPrefixOf path.toList

/-- The admin UI, at its own path and at the one it used to live on. -/
def isAdminUi (path : String) : Bool := startsWith path "/admin" || startsWith path "/_admin"

/-- Endpoints that report on the whole process rather than on one subject. -/
def isWholeProcess (path : String) : Bool := isAdminUi path || path == "/metrics"

/-- An exporter's definition carries the destination's credentials. -/
def revealsExporterCredentials (path : String) : Bool :=
  match segments path with
  | ["exporters", _] | ["exporters", _, "config"] => true
  | _ => false

/-- The POSTs that only look something up. -/
def isLookupPost (path : String) : Bool :=
  match segments path with
  | ["subjects", _] => true
  | "compatibility" :: "subjects" :: _ :: "versions" :: _ => true
  | _ => false

def readOnlyRequest (method : Method) (path : String) : Bool :=
  method ∈ [Method.get, .head, .options] || (method == .post && isLookupPost path)

/-- The role rules, once we know which roles apply. -/
def allows (roles : List Role) (method : Method) (path : String) (target : Target) : Bool :=
  if isWholeProcess path then .admin ∈ roles
  else if .admin ∈ roles then true
  else if revealsExporterCredentials path then false
  else if readOnlyRequest method path then !roles.isEmpty
  else if .write ∈ roles then
    -- Writers manage schemas and subject-scoped settings.
    match target with
    | .subject _ => true
    | _ => false
  else false

def authorized (p : Principal) (method : Method) (path : String) : Bool :=
  match targetOf path with
  | .subject q => allows (p.rolesForSubject q) method path (.subject q)
  | .context ctx => allows (p.rolesForContext ctx) method path (.context ctx)
  | .listing => if isAdminUi path then p.hasRoleAnywhere .admin else p.hasAnyRole
  | .global => allows p.roles method path .global

/-- `Caller::filter`: only the items whose subject the caller may see. -/
def filter {α : Type} (p : Principal) (items : List α) (subjectOf : α → String) : List α :=
  if p.seesEverything then items
  else items.filter fun x =>
    let q := QualifiedSubject.parse (subjectOf x)
    p.canSeeSubject q.context q.subject

end SchemaRegistry.Authz
