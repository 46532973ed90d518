import SchemaRegistry.Lib.Scopes
import SchemaRegistry.Lib.Template
import SchemaRegistry.Schema.Proto.Diff

/-!
A file descriptor printed as source text. The text is made piece by piece; a piece that prints a
type says in which scope it stands and what the descriptor names there.
-/

namespace SchemaRegistry.Proto

open Lib

/-! ### Descriptors -/

/-- `field_descriptor_proto::Type`. -/
inductive FieldKind where
  | scalar (s : Scalar)
  | group | message | enum
  deriving DecidableEq, Repr

structure FieldOptions where
  packed : Option Bool
  deprecated : Option Bool

structure FieldDescriptor where
  name : String
  number : Int
  label : Label
  kind : Option FieldKind
  typeName : Option String
  extendee : String := ""
  defaultValue : Option String := none
  jsonName : Option String := none
  options : Option FieldOptions := none
  oneofIndex : Option Int := none
  proto3Optional : Bool := false

structure EnumDescriptor where
  name : String
  values : List (String × Int)
  allowAlias : Option Bool := none
  reservedRange : List (Int × Int) := []
  reservedName : List String := []

structure MessageDescriptor where
  name : String
  fields : List FieldDescriptor := []
  nested : List MessageDescriptor := []
  enums : List EnumDescriptor := []
  extensionRange : List (Int × Int) := []
  extensions : List FieldDescriptor := []
  oneofs : List String := []
  mapEntry : Option Bool := none
  deprecated : Option Bool := none
  reservedRange : List (Int × Int) := []
  reservedName : List String := []

structure MethodDescriptor where
  name : String
  inputType : String
  outputType : String
  clientStreaming : Bool := false
  serverStreaming : Bool := false

structure ServiceDescriptor where
  name : String
  methods : List MethodDescriptor

structure FileOptions where
  javaPackage : Option String := none
  javaOuterClassname : Option String := none
  javaMultipleFiles : Option Bool := none
  goPackage : Option String := none
  csharpNamespace : Option String := none
  objcClassPrefix : Option String := none
  phpNamespace : Option String := none
  rubyPackage : Option String := none
  swiftPrefix : Option String := none
  ccEnableArenas : Option Bool := none
  deprecated : Option Bool := none
  optimizeFor : Option Int := none

structure FileDescriptor where
  dialect : Option String := none
  package : Option String := none
  dependency : List String := []
  publicDependency : List Int := []
  weakDependency : List Int := []
  options : Option FileOptions := none
  messages : List MessageDescriptor := []
  enums : List EnumDescriptor := []
  extensions : List FieldDescriptor := []
  services : List ServiceDescriptor := []

/-! ### Pieces of text -/

/-- What a descriptor says about a type. -/
inductive TypeSpec where
  | scalar (s : Scalar)
  | named (name : String)
  deriving DecidableEq, Repr

inductive Piece where
  | raw (s : String)
  /-- A type in a scope, as it is named and as it is printed. -/
  | type (scope : List String) (spec : TypeSpec) (printed : String)
  /-- A type in a scope printed as a map, with the key and the value of an entry of that scope. -/
  | map (scope : List String) (spec : TypeSpec) (entry : String)
  deriving DecidableEq, Repr

def Piece.text : Piece → String
  | .raw s => s
  | .type _ _ printed => printed
  | .map _ _ _ => "map"

def escape (s : String) : String :=
  String.ofList (fillPlaces ['"'] ['\\', '"'] (fillPlaces ['\\'] ['\\', '\\'] s.toList))

def indent (n : Nat) : String := String.join (List.replicate n "  ")

def line (s : String) : Piece := .raw (s ++ "\n")

/-! ### Types -/

/-- `scalar_name`, as the source spells it. -/
def Scalar.keyword : Scalar → String
  | .double => "double"
  | .float => "float"
  | .int64 => "int64"
  | .uint64 => "uint64"
  | .int32 => "int32"
  | .fixed64 => "fixed64"
  | .fixed32 => "fixed32"
  | .bool => "bool"
  | .string => "string"
  | .bytes => "bytes"
  | .uint32 => "uint32"
  | .sfixed32 => "sfixed32"
  | .sfixed64 => "sfixed64"
  | .sint32 => "sint32"
  | .sint64 => "sint64"

def scalarName : FieldKind → Option String
  | .scalar s => some s.keyword
  | .group | .message | .enum => none

/-- The name without its leading dot. -/
def qualified (name : String) : String :=
  match name.toList with
  | '.' :: rest => String.ofList rest
  | _ => name

namespace FieldDescriptor

variable (f : FieldDescriptor)

/-- `type()`: a type that is not set counts as `double`. -/
def kindOrDefault : FieldKind := f.kind.getD (.scalar .double)

def typeNameOrDefault : String := f.typeName.getD ""

/-- `type_name`. -/
def typeText : String :=
  if f.kind.isNone ∧ f.typeName.isSome then qualified f.typeNameOrDefault
  else (scalarName f.kindOrDefault).getD (qualified f.typeNameOrDefault)

/-- The type the descriptor names. -/
def spec : TypeSpec :=
  match f.kind, f.typeName with
  | none, some name => .named name
  | none, none => .scalar .double
  | some (.scalar s), _ => .scalar s
  | some _, name => .named (name.getD "")

def piece (scope : List String) : Piece := .type scope f.spec f.typeText

end FieldDescriptor

/-- The source calls `to_uppercase`, which agrees with `Char.toUpper` on the letters a compiled file
can have in a field name, the ASCII ones. -/
def defaultJsonName (name : String) : String :=
  String.ofList (go false name.toList)
where
  go (upper : Bool) : List Char → List Char
    | [] => []
    | '_' :: cs => go true cs
    | c :: cs => (if upper then c.toUpper else c) :: go false cs

def fieldOptions (f : FieldDescriptor) (proto3 : Bool) : String :=
  let default := match f.defaultValue with
    | some d =>
        if proto3 then [] else
          match f.kindOrDefault with
          | .scalar .string | .scalar .bytes => ["default = \"" ++ escape d ++ "\""]
          | _ => ["default = " ++ d]
    | none => []
  let json := match f.jsonName with
    | some j => if j ≠ defaultJsonName f.name then ["json_name = \"" ++ escape j ++ "\""] else []
    | none => []
  let packed := ((f.options.bind (·.packed)).map fun p => "packed = " ++ toString p).toList
  let deprecated := if f.options.bind (·.deprecated) = some true then ["deprecated = true"] else []
  let opts := default ++ json ++ packed ++ deprecated
  if opts.isEmpty then "" else " [" ++ ", ".intercalate opts ++ "]"

/-- The last part of a dotted name. -/
def shortName (name : String) : String :=
  String.ofList ((name.toList.splitOn '.').getLast?.getD [])

/-- `map_entry`: a map entry among the messages nested beside a field, by the last part of its
type's name. -/
def mapEntry (nested : List MessageDescriptor) (f : FieldDescriptor) : Option MessageDescriptor :=
  if (f.kindOrDefault = .message ∨ (f.kind.isNone ∧ f.typeName.isSome)) ∧ f.label = .repeated then
    nested.find? fun n => n.name = shortName f.typeNameOrDefault ∧ n.mapEntry = some true
  else none

/-- The type of the field of an entry with a number. -/
def entryType (scope : List String) (entry : MessageDescriptor) (number : Int) : List Piece :=
  ((entry.fields.find? (·.number = number)).map (·.piece scope)).toList

def labelText (f : FieldDescriptor) (proto3 inOneof : Bool) : String :=
  if inOneof then ""
  else match f.label with
    | .repeated => "repeated "
    | .required => "required "
    | .optional => if proto3 then (if f.proto3Optional then "optional " else "") else "optional "

/-- `field_line`. -/
def fieldLine (scope : List String) (nested : List MessageDescriptor) (f : FieldDescriptor)
    (depth : Nat) (proto3 inOneof : Bool) : List Piece :=
  let rest := " " ++ f.name ++ " = " ++ toString f.number ++ fieldOptions f proto3 ++ ";"
  match mapEntry nested f with
  | some entry =>
      [.raw (indent depth), .map scope f.spec entry.name, .raw "<"] ++ entryType scope entry 1
        ++ [.raw ", "] ++ entryType scope entry 2 ++ [line (">" ++ rest)]
  | none => [.raw (indent depth ++ labelText f proto3 inOneof), f.piece scope, line rest]

/-! ### Declarations -/

def rangeText (max : Int) (range : Int × Int) : String :=
  if range.2 ≥ max then toString range.1 ++ " to max"
  else if range.2 - 1 = range.1 then toString range.1
  else toString range.1 ++ " to " ++ toString (range.2 - 1)

/-- `reserved_ranges`. -/
def reservedRanges (pad : String) (ranges : List (Int × Int)) (names : List String) (max : Int) :
    List Piece :=
  (if ranges.isEmpty then []
    else [line (pad ++ "reserved " ++ ", ".intercalate (ranges.map (rangeText max)) ++ ";")])
  ++ (if names.isEmpty then []
    else [line (pad ++ "reserved " ++ ", ".intercalate (names.map fun n => "\"" ++ escape n ++ "\"")
      ++ ";")])

/-- `enumeration`. -/
def enumeration (e : EnumDescriptor) (depth : Nat) : List Piece :=
  [line (indent depth ++ "enum " ++ e.name ++ " \x7b")]
  ++ (if e.allowAlias = some true then [line (indent (depth + 1) ++ "option allow_alias = true;")]
    else [])
  ++ (e.values.map fun v => line (indent (depth + 1) ++ v.1 ++ " = " ++ toString v.2 ++ ";"))
  ++ reservedRanges (indent (depth + 1))
    (e.reservedRange.map fun r => (r.1, min (r.2 + 1) 2147483647)) e.reservedName 2147483647
  ++ [line (indent depth ++ "\x7d")]

/-- The values of a list without repetitions, each where it first stands. -/
def firsts (names : List String) : List String :=
  names.foldl (fun seen n => if seen.contains n then seen else seen ++ [n]) []

/-- `extensions`. -/
def extensions (scope : List String) (exts : List FieldDescriptor) (depth : Nat) (proto3 : Bool) :
    List Piece :=
  (firsts (exts.map (·.extendee))).flatMap fun ext =>
    [.raw (indent depth ++ "extend "), .type scope (.named ext) (qualified ext), line " \x7b"]
    ++ ((exts.filter (·.extendee = ext)).flatMap fun f =>
      fieldLine scope [] f (depth + 1) proto3 false)
    ++ [line (indent depth ++ "\x7d")]

section Fields

variable (scope : List String) (m : MessageDescriptor) (depth : Nat) (proto3 : Bool)

/-- The fields of a message; those of a oneof stand together where the first of them does. -/
def fieldBlocks : List FieldDescriptor → List Int → List Piece
  | [], _ => []
  | f :: rest, printed =>
      let lone := fieldLine scope m.nested f (depth + 1) proto3 false ++ fieldBlocks rest printed
      match f.oneofIndex with
      | some idx =>
          if !f.proto3Optional
              && m.fields.any (fun f => f.oneofIndex = some idx && !f.proto3Optional) then
            if printed.contains idx then fieldBlocks rest printed
            else
              let name := if 0 ≤ idx then m.oneofs[idx.toNat]?.getD "oneof" else "oneof"
              [line (indent (depth + 1) ++ "oneof " ++ name ++ " \x7b")]
              ++ ((m.fields.filter (·.oneofIndex = some idx)).flatMap fun f =>
                fieldLine scope m.nested f (depth + 2) proto3 true)
              ++ [line (indent (depth + 1) ++ "\x7d")] ++ fieldBlocks rest (printed ++ [idx])
          else lone
      | none => lone

end Fields

mutual

/-- `message`; the scope is the one it stands in. -/
def message (outer : List String) (depth : Nat) (proto3 : Bool) : MessageDescriptor → List Piece
  | ⟨name, fields, nested, enums, extensionRange, exts, oneofs, entry, deprecated, reserved,
      reservedName⟩ =>
      let m : MessageDescriptor :=
        ⟨name, fields, nested, enums, extensionRange, exts, oneofs, entry,
        deprecated, reserved, reservedName⟩
      [line (indent depth ++ "message " ++ name ++ " \x7b")]
      ++ (if deprecated = some true then [line (indent (depth + 1) ++ "option deprecated = true;")]
        else [])
      ++ fieldBlocks (outer ++ [name]) m depth proto3 fields []
      ++ nestedMessages (outer ++ [name]) (depth + 1) proto3 nested
      ++ (enums.flatMap fun e => enumeration e (depth + 1))
      ++ (extensionRange.map fun r =>
        line (indent (depth + 1) ++ "extensions " ++ toString r.1 ++ " to "
          ++ (if r.2 ≥ 536870912 then "max" else toString (r.2 - 1)) ++ ";"))
      ++ reservedRanges (indent (depth + 1)) reserved reservedName 536870912
      ++ extensions (outer ++ [name]) exts (depth + 1) proto3
      ++ [line (indent depth ++ "\x7d")]

/-- Map entries are not printed. -/
def nestedMessages (outer : List String) (depth : Nat) (proto3 : Bool) :
    List MessageDescriptor → List Piece
  | [] => []
  | n :: rest =>
      (if n.mapEntry = some true then [] else message outer depth proto3 n)
      ++ nestedMessages outer depth proto3 rest

end

/-! ### Files -/

def importLine (fd : FileDescriptor) (i : Nat) (dep : String) : Piece :=
  let keyword := if fd.publicDependency.contains i then "import public"
    else if fd.weakDependency.contains i then "import weak" else "import"
  line (keyword ++ " \"" ++ escape dep ++ "\";")

def fileOptionLines (o : FileOptions) : List String :=
  let text (key : String) (v : Option String) : List String :=
    (v.map fun v => "option " ++ key ++ " = \"" ++ escape v ++ "\";").toList
  let flag (key : String) (v : Option Bool) : List String :=
    (v.map fun v => "option " ++ key ++ " = " ++ toString v ++ ";").toList
  text "java_package" o.javaPackage ++ text "java_outer_classname" o.javaOuterClassname
  ++ flag "java_multiple_files" o.javaMultipleFiles ++ text "go_package" o.goPackage
  ++ text "csharp_namespace" o.csharpNamespace ++ text "objc_class_prefix" o.objcClassPrefix
  ++ text "php_namespace" o.phpNamespace ++ text "ruby_package" o.rubyPackage
  ++ text "swift_prefix" o.swiftPrefix ++ flag "cc_enable_arenas" o.ccEnableArenas
  ++ flag "deprecated" o.deprecated
  ++ (o.optimizeFor.map fun v => "option optimize_for = "
    ++ (if v = 2 then "CODE_SIZE" else if v = 3 then "LITE_RUNTIME" else "SPEED") ++ ";").toList

namespace FileDescriptor

variable (fd : FileDescriptor)

def dialectText : String := (fd.dialect.filter fun s => s ≠ "").getD "proto2"

/-- The scope of the file: the parts of its package. -/
def scope : List String :=
  match fd.package.filter fun p => p ≠ "" with
  | some p => (p.toList.splitOn '.').map String.ofList
  | none => []

/-- What stands before the declarations. -/
def header : List Piece :=
  [line ("syntax = \"" ++ fd.dialectText ++ "\";")]
  ++ ((fd.package.filter fun p => p ≠ "").map fun p => line ("package " ++ p ++ ";")).toList
  ++ (if fd.dependency.isEmpty then []
    else line "" :: fd.dependency.zipIdx.map fun (dep, i) => importLine fd i dep)
  ++ match fd.options with
    | some o => if (fileOptionLines o).isEmpty then [] else line "" :: (fileOptionLines o).map line
    | none => []

end FileDescriptor

def methodLine (scope : List String) (m : MethodDescriptor) : List Piece :=
  [.raw ("  rpc " ++ m.name ++ "(" ++ if m.clientStreaming then "stream " else ""),
    .type scope (.named m.inputType) (qualified m.inputType),
    .raw (") returns (" ++ if m.serverStreaming then "stream " else ""),
    .type scope (.named m.outputType) (qualified m.outputType), line ");"]

def service (outer : List String) (s : ServiceDescriptor) : List Piece :=
  [line "", line ("service " ++ s.name ++ " \x7b")]
  ++ s.methods.flatMap (methodLine (outer ++ [s.name])) ++ [line "\x7d"]

/-- `render`, piece by piece. -/
def pieces (fd : FileDescriptor) : List Piece :=
  let proto3 : Bool := fd.dialectText = "proto3"
  fd.header
  ++ (fd.messages.flatMap fun m => line "" :: message fd.scope 0 proto3 m)
  ++ (fd.enums.flatMap fun e => line "" :: enumeration e 0)
  ++ extensions fd.scope fd.extensions 0 proto3
  ++ fd.services.flatMap (service fd.scope)

def render (fd : FileDescriptor) : String := String.join ((pieces fd).map Piece.text)

end SchemaRegistry.Proto
