import SchemaRegistry.Api.Router
import SchemaRegistry.Model

/-!
What is done to a request URI before it is routed: empty segments are dropped, the form
`/contexts/{ctx}/...` is turned into the context-qualified one, and a subject that is an alias
is replaced by the subject it stands for.
-/

namespace SchemaRegistry.Rewrite

open Lib SchemaRegistry.Authz

/-! ### Contexts in the path -/

/-- One colon off either end. -/
def stripColons (l : List Char) : List Char :=
  let l := if l.head? = some ':' then l.tail else l
  if l.getLast? = some ':' then l.dropLast else l

/-- `""` for the default context, else `:.ctx:`. -/
def normalizeContext (ctx : String) : Except String String :=
  let c := stripColons ctx.toList
  if c.contains ':' then .error "Context name cannot contain a colon"
  else
    let c := if c.head? = some '.' then String.ofList c else "." ++ String.ofList c
    .ok (if c = defaultContext then "" else ":" ++ c ++ ":")

def qualified (s : String) : Bool :=
  ":.".toList.isPrefixOf s.toList || ":*:".toList.isPrefixOf s.toList

/-- Trailing empty strings are dropped, the first string never. -/
def dropTrailingEmpty (segs : List String) : List String :=
  let kept := (segs.reverse.dropWhile String.isEmpty).reverse
  if kept.isEmpty then segs.take 1 else kept

/-- Where the scan of a path is. -/
structure ContextScan where
  contextPathFound : Bool := false
  context : String := "."
  configOrModeFound : Bool := false
  subjectPathFound : Bool := false
  out : String := ""
  isFirst : Bool := true

def scanSegment (st : ContextScan) (seg : String) : Except String ContextScan :=
  if st.contextPathFound then .ok { st with context := seg, contextPathFound := false }
  else if seg = "contexts" then .ok { st with contextPathFound := true }
  else do
    let modified ←
      if st.subjectPathFound && !qualified seg then (normalizeContext st.context).map (· ++ seg)
      else .ok seg
    let rootConfigOrMode := st.isFirst && (seg == "config" || seg == "mode")
    .ok { st with
      subjectPathFound := seg == "subjects" || seg == "deks" || rootConfigOrMode
      configOrModeFound := st.configOrModeFound || rootConfigOrMode
      out := st.out ++ modified ++ "/"
      isFirst := st.isFirst && seg.isEmpty }

/-- The path that is written, and the context, once all segments are scanned. -/
def scanEnd (st : ContextScan) : Except String (String × String) := do
  let out ←
    if st.configOrModeFound && st.subjectPathFound then do
      let nc ← normalizeContext st.context
      .ok (if nc.isEmpty then st.out else st.out ++ nc ++ "/")
    else .ok (if st.contextPathFound then st.out ++ "contexts/" else st.out)
  .ok (out, st.context)

/-- The path with its context in the subject, and the context; `path` has no leading slash. -/
def contextFilterPath (path : String) : Except String (String × String) :=
  (dropTrailingEmpty (rawSegments path)).foldlM scanSegment {} >>= scanEnd

/-! ### Query parameters -/

def queryPairs (q : String) : List (String × String) :=
  (((q.toList.splitOn '&').filter (· ≠ [])).map fun kv =>
    let p := (splitOnce '=' kv).getD (kv, [])
    (percentDecode (String.ofList p.1), percentDecode (String.ofList p.2)))

def setParam (pairs : List (String × String)) (name : String) (values : List String) :
    List (String × String) :=
  pairs.filter (·.1 ≠ name) ++ values.map (name, ·)

/-- The value of a parameter that names a subject, or nothing. -/
def subjectParam (pairs : List (String × String)) : String := (pairs.lookup "subject").getD ""

/-- The query parameters that take a context. -/
def contextFilterQuery (path context : String) (pairs : List (String × String)) :
    Except String (List (String × String)) := do
  let p := String.ofList (trimSlashes path.toList)
  let start ← normalizeContext context
  if "schemas/ids".toList.isPrefixOf p.toList then
    let subject := subjectParam pairs
    .ok (if qualified subject then pairs else setParam pairs "subject" [start ++ subject])
  else if p = "schemas" || p = "subjects" || "keks".toList.isPrefixOf p.toList then
    let given := (pairs.filter (·.1 = "subjectPrefix")).map Prod.snd
    let given := if given.isEmpty then [""] else given
    .ok (setParam pairs "subjectPrefix" (given.map fun x => if qualified x then x else start ++ x))
  else .ok pairs

/-- What stays as it is in a query value. -/
def plainInQuery (b : UInt8) : Bool :=
  alphanumeric b || (utf8 "-._~:*").contains b

def encodeQueryValue (s : String) : String := escapeText plainInQuery s

/-! ### Aliases -/

/-- What stays as it is in a path segment. -/
def plainInPath (b : UInt8) : Bool :=
  alphanumeric b || (utf8 "-._~:*@!$&'()+,;=").contains b

def encodeSegment (s : String) : String := escapeText plainInPath s

section Aliases

-- The alias that is configured for a subject.
variable (aliasOf : String → Option String)

/-- The subject a segment stands for, if it is an alias; an unqualified one lives in the context
of the segment as it is written. -/
def replaceAlias (raw decoded : String) : Option String :=
  if raw.isEmpty then none
  else
    ((aliasOf decoded).filter fun a => !a.isEmpty).map fun a =>
      let q := QualifiedSubject.parse a
      let parent := QualifiedSubject.parse raw
      let target : QualifiedSubject :=
        if q.context == defaultContext && parent.context != defaultContext then
          ⟨parent.context, a⟩
        else q
      target.qualified

/-- One segment of the path, and whether the next one names a subject. -/
def aliasSegment (st : String × Bool) (seg : String) : String × Bool :=
  let m :=
    if st.2 then ((replaceAlias aliasOf seg (percentDecode seg)).map encodeSegment).getD seg
    else seg
  (st.1 ++ "/" ++ m, seg == "subjects" || seg == "deks")

def aliasFilter (path : String) (pairs : List (String × String)) :
    String × List (String × String) :=
  let segs := (rawSegments path).filter fun s => !s.isEmpty
  let out := (segs.foldl (aliasSegment aliasOf) ("", false)).1
  let out := if out.isEmpty then "/" else out
  let subject := subjectParam pairs
  let pairs :=
    if "schemas/ids".toList.isPrefixOf (trimSlashes path.toList) then
      match replaceAlias aliasOf subject subject with
      | some a => setParam pairs "subject" [a]
      | none => pairs
    else pairs
  (out, pairs)

/-! ### All of it -/

/-- Empty segments are ignored. -/
def cleanPath (path : String) : String :=
  if ¬ "//".toList <:+: path.toList ∧ (path.utf8ByteSize ≤ 1 ∨ path.toList.getLast? ≠ some '/') then
    path
  else "/" ++ "/".intercalate ((rawSegments path).filter fun s => !s.isEmpty)

/-- The query string of some parameters. -/
def rebuildQuery (pairs : List (String × String)) : Option String :=
  let q := pairs.map fun (k, v) => encodeQueryValue k ++ "=" ++ encodeQueryValue v
  if q.isEmpty then none else some ("&".intercalate q)

/-- The path and the query a request is routed by. -/
def prematch (path : String) (query : Option String) (isDeleteContext : Bool) :
    ApiResult (String × Option String) := do
  let path := cleanPath path
  let pairs := (query.map queryPairs).getD []
  let bare := String.ofList (path.toList.dropWhile (· == '/'))
  let (path, pairs, changed) ←
    -- `DELETE /contexts/{ctx}` is left alone.
    if "contexts/".toList.isPrefixOf bare.toList && !isDeleteContext then
      match contextFilterPath bare with
      | .error e => .error ⟨400, e⟩
      | .ok (p, ctx) =>
          match contextFilterQuery p ctx pairs with
          | .error e => .error ⟨400, e⟩
          | .ok pairs => .ok ("/" ++ p, pairs, true)
    else .ok (path, pairs, false)
  let (newPath, newPairs) := aliasFilter aliasOf path pairs
  let query :=
    if changed || pairs ≠ newPairs then rebuildQuery newPairs else query
  .ok (newPath, query)

end Aliases

end SchemaRegistry.Rewrite
