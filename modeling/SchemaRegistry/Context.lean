import SchemaRegistry.Lib.Bytes

/-!
Context-qualified subject names. The context of a subject is written inside the
subject string: only a leading `:.` starts one, it runs to the next `:` or to
the end, and `:*:` is the wildcard used by listings. Each context is a separate
namespace with its own id space.
-/

namespace SchemaRegistry

open Lib

def defaultContext : String := "."
def wildcardContext : String := "*"

structure QualifiedSubject where
  context : String
  /-- Empty when the string only named a context (`:.ctx:`). -/
  subject : String
  deriving DecidableEq, Repr

/-- `.` for the default context, else the context as written. -/
def normalizeParsed (ctx : String) : String :=
  if ctx.isEmpty then defaultContext else ctx

theorem normalizeParsed_dot (cs : List Char) :
    normalizeParsed (String.ofList ('.' :: cs)) = String.ofList ('.' :: cs) := by
  simp [normalizeParsed]

namespace QualifiedSubject

def parse (raw : String) : QualifiedSubject :=
  match raw.toList with
  | ':' :: '.' :: rest =>
      match splitOnce ':' rest with
      | some (before, after) =>
          ⟨normalizeParsed (String.ofList ('.' :: before)), String.ofList after⟩
      | none => ⟨normalizeParsed (String.ofList ('.' :: rest)), ""⟩
  | ':' :: '*' :: ':' :: rest => ⟨wildcardContext, String.ofList rest⟩
  | _ => ⟨defaultContext, raw⟩

def isWildcard (q : QualifiedSubject) : Bool := q.context == wildcardContext

def isContextOnly (q : QualifiedSubject) : Bool := q.subject.isEmpty

end QualifiedSubject

def qualify (context subject : String) : String :=
  if context = defaultContext then subject else ":" ++ context ++ ":" ++ subject

/-- The form clients see: unqualified in the default context. -/
def QualifiedSubject.qualified (q : QualifiedSubject) : String :=
  qualify q.context q.subject

/-- Whether a string starts with `:.`, the mark of a context-qualified name. -/
def startsQualified (raw : String) : Bool :=
  match raw.toList with
  | ':' :: '.' :: _ => true
  | _ => false

def isAsciiAlphanumeric (c : Char) : Bool :=
  ('a' ≤ c && c ≤ 'z') || ('A' ≤ c && c ≤ 'Z') || ('0' ≤ c && c ≤ '9')

/-- Canonical context name: always starts with a dot; `""` and `"."` are the default. -/
def normalizeContext (ctx : String) : Option String :=
  if ctx.isEmpty || ctx == defaultContext then some defaultContext
  else if ctx == wildcardContext then some wildcardContext
  else
    let name := if ctx.toList.head? = some '.' then ctx else "." ++ ctx
    let valid := 1 < name.utf8ByteSize && name.utf8ByteSize ≤ 256
      && name.toList.tail.all fun c => isAsciiAlphanumeric c || c == '.' || c == '-' || c == '_'
    if valid then some name else none

/-- `char::is_control`: the Unicode category Cc. -/
def isControl (c : Char) : Bool :=
  c.val < 0x20 || (0x7f ≤ c.val && c.val ≤ 0x9f)

/-- No control characters, and not one of the reserved names after the context. -/
def isValidSubject (raw : String) : Bool :=
  !raw.toList.any isControl && (QualifiedSubject.parse raw).subject != "__GLOBAL"
    && (QualifiedSubject.parse raw).subject != "__EMPTY"

example : QualifiedSubject.parse ":.ctx:foo" = ⟨".ctx", "foo"⟩ := by decide
example : QualifiedSubject.parse ":abc:x" = ⟨".", ":abc:x"⟩ := by decide

end SchemaRegistry
