import SchemaRegistry.Registry.Views

/-!
Which configuration and which mode apply to a request. Resolution is by first
match, never by merging: a subject's own record if it has one, else its context's
(or the global one, in the default context), else the server default. A global
READONLY_OVERRIDE is the single exception that reaches into every context.
-/

namespace SchemaRegistry

/-- The config/mode key of a subject: `:.ctx:` (no subject) is the context itself. -/
def scopeFor (q : QualifiedSubject) : Scope :=
  if q.isContextOnly then .context q.context else .subject q.context q.subject

/-- The scope a request names; no subject is the registry as a whole. -/
def scopeOf : Option QualifiedSubject → Scope
  | none => .global
  | some q => scopeFor q

/-- A missing level, and the server's `normalize`, are filled in on every read. -/
def filled (srv : Server) (c : ConfigRecord) : ConfigRecord :=
  { c with
    compatibilityLevel := c.compatibilityLevel.or (some srv.defaultCompatibility)
    normalize := if srv.normalizeDefault then c.normalize.or (some true) else c.normalize }

/-- The record stored for exactly this scope (the global scope always has one). -/
def configOf (srv : Server) (r : Reader) : Option QualifiedSubject → Option ConfigRecord
  | none => some (filled srv ((r.getConfig .global).getD default))
  | some q => (r.getConfig (scopeFor q)).map (filled srv)

def configInScope (srv : Server) (r : Reader) (q : QualifiedSubject) : ConfigRecord :=
  match r.getConfig (scopeFor q) with
  | some c => filled srv c
  | none =>
      let parent :=
        if q.context ≠ defaultContext then r.getConfig (.context q.context)
        else r.getConfig .global
      filled srv (parent.getD default)

def normalizeInScope (srv : Server) (r : Reader) (q : QualifiedSubject) : Bool :=
  (configInScope srv r q).normalize == some true

def globalModeIn (r : Reader) : Mode := (r.getMode .global).getD .readwrite

/-- A global READONLY_OVERRIDE wins, else exactly this scope's mode. -/
def modeOfScope (r : Reader) (q : Option QualifiedSubject) : Option Mode :=
  if globalModeIn r = .readonlyOverride then some (globalModeIn r)
  else
    match q with
    | none => some (globalModeIn r)
    | some q => r.getMode (scopeFor q)

def modeInScope (r : Reader) (q : QualifiedSubject) : Mode :=
  if globalModeIn r = .readonlyOverride then globalModeIn r
  else
    match r.getMode (scopeFor q) with
    | some m => m
    | none =>
        let parent :=
          if q.context ≠ defaultContext then r.getMode (.context q.context)
          else some (globalModeIn r)
        parent.getD .readwrite

/-- `GET /config[/{subject}]`: the scope's own record, or the one in scope. -/
def getConfig (srv : Server) (r : Reader) (subject : Option String) (defaultToGlobal : Bool) :
    ApiResult ConfigRecord :=
  match subject with
  | none => .ok (filled srv ((r.getConfig .global).getD default))
  | some s =>
      let q := QualifiedSubject.parse s
      if defaultToGlobal then .ok (configInScope srv r q)
      else
        match configOf srv r (some q) with
        | some c => .ok c
        | none => .error (.subjectCompatNotConfigured q.qualified)

/-- `GET /mode[/{subject}]`. -/
def getMode (r : Reader) (subject : Option String) (defaultToGlobal : Bool) : ApiResult Mode :=
  match subject with
  | none => .ok (globalModeIn r)
  | some s =>
      let q := QualifiedSubject.parse s
      if defaultToGlobal then .ok (modeInScope r q)
      else
        match modeOfScope r (some q) with
        | some m => .ok m
        | none => .error (.subjectModeNotConfigured q.qualified)

end SchemaRegistry
