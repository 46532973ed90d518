import SchemaRegistry.Lib.Fuel
import SchemaRegistry.Schema.Formats
import SchemaRegistry.Schema.JavaOrder

/-!
Compatibility of Protobuf schemas. Messages are matched by name level by level, fields by number;
the message types of two fields are compared where they are met, unless both come from the same
place. A stack of the writer's messages under comparison keeps recursive types from going round.
The calls are bounded by a number that stands for the depth they may reach.
-/

namespace SchemaRegistry.Proto

open Lib

/-! ### Compiled schemas -/

inductive Scalar where
  | double | float | int32 | int64 | uint32 | uint64 | sint32 | sint64
  | fixed32 | fixed64 | sfixed32 | sfixed64 | bool | string | bytes
  deriving DecidableEq, Repr

/-- The type of a field; `M` stands for message descriptors. -/
inductive Kind (M : Type) where
  | scalar (s : Scalar)
  | enum
  | message (m : M)

inductive Label where
  | optional | required | repeated
  deriving DecidableEq, Repr

inductive Dialect where
  | proto2 | proto3
  deriving DecidableEq, Repr

structure FieldInfo (M : Type) where
  name : String
  number : UInt32
  kind : Kind M
  label : Label
  proto3Optional : Bool
  /-- The place of its oneof among those of the message. -/
  oneof : Option Nat

structure OneofInfo where
  name : String
  /-- It only exists for a proto3 `optional`. -/
  synthetic : Bool

structure FileInfo where
  name : String
  package : String
  dialect : Dialect
  deriving DecidableEq, Repr

structure MessageInfo (M : Type) where
  name : String
  fullName : String
  file : FileInfo
  mapEntry : Bool
  fields : List (FieldInfo M)
  oneofs : List OneofInfo
  children : List M

/-- A name declared in a scope; the scope without a name is the outermost one. -/
def qualify (scope name : String) : String := if scope = "" then name else scope ++ "." ++ name

/-- Every message of a set of compiled files. The compiler gives a message its place before those
declared inside it, and refuses a name or a field number declared twice. -/
structure Pool where
  size : Nat
  message : Fin size → MessageInfo (Fin size)
  nesting : ∀ m, ∀ c ∈ (message m).children, m < c
  inside : ∀ m, ∀ c ∈ (message m).children, (message c).file = (message m).file
    ∧ (message c).fullName = (message m).fullName ++ "." ++ (message c).name
  simple : ∀ m, '.' ∉ (message m).name.toList
  distinct : ∀ m n, (message m).fullName = (message n).fullName → m = n
  numbers : ∀ m, ((message m).fields.map (·.number)).Nodup

/-- The file of a schema itself, as it is compiled. -/
def rootFile : String := "__root__.proto"

structure RootFile (M : Type) where
  package : String
  messages : List M

structure ProtoSchema where
  pool : Pool
  /-- What `__root__.proto` declares. -/
  root : Option (RootFile (Fin pool.size))
  /-- Referenced files by import name, to tell same-reference types apart. -/
  deps : List (String × String)
  outermost : ∀ rf ∈ root, ∀ m ∈ rf.messages,
    (pool.message m).file.name = rootFile ∧ (pool.message m).file.package = rf.package
      ∧ (pool.message m).fullName = qualify rf.package (pool.message m).name

/-- Messages and fields of a pool. -/
abbrev Pool.Msg (p : Pool) : Type := Fin p.size

abbrev Pool.Field (p : Pool) : Type := FieldInfo p.Msg

abbrev ProtoSchema.Msg (s : ProtoSchema) : Type := s.pool.Msg

abbrev ProtoSchema.Field (s : ProtoSchema) : Type := s.pool.Field

/-! ### Fields -/

/-- Field type as the diff sees it. -/
inductive FieldType (M : Type) where
  | scalar (s : Scalar)
  | enum
  | message (m : M)
  | map (key value : FieldType M)

inductive TypeKind where
  | scalar | map | message
  deriving DecidableEq, Repr

/-- Wire-compatible groups; enums are plain numbers. -/
inductive ScalarKind where
  | generalNumber | signedNumber | stringOrBytes | fixed32 | fixed64 | float | double | any
  deriving DecidableEq, Repr

namespace FieldType

variable {M : Type}

def ofKind : Kind M → FieldType M
  | .scalar s => .scalar s
  | .enum => .enum
  | .message m => .message m

def kind : FieldType M → TypeKind
  | .scalar _ | .enum => .scalar
  | .map .. => .map
  | .message _ => .message

def scalarKind : FieldType M → ScalarKind
  | .enum => .generalNumber
  | .scalar s =>
      match s with
      | .int32 | .int64 | .uint32 | .uint64 | .bool => .generalNumber
      | .sint32 | .sint64 => .signedNumber
      | .string | .bytes => .stringOrBytes
      | .fixed32 | .sfixed32 => .fixed32
      | .fixed64 | .sfixed64 => .fixed64
      | .float => .float
      | .double => .double
  | _ => .any

end FieldType

namespace Pool

variable (p : Pool)

/-- The entry type of a map field. -/
def mapEntryOf (f : p.Field) : Option p.Msg :=
  match f.kind with
  | .message e => if f.label = .repeated ∧ (p.message e).mapEntry then some e else none
  | _ => none

/-- A part of a map entry, the key by 1 and the value by 2. -/
def entryField (e : p.Msg) (n : UInt32) : Option p.Field :=
  (p.message e).fields.find? (·.number == n)

/-- `FieldType::of`. The parts of a map entry are fields themselves, and an entry written out with
`option map_entry = true` may have any. One without a key or a value stops the program. -/
def fieldType : Nat → p.Field → Option (FieldType p.Msg)
  | 0, _ => none
  | fuel + 1, f =>
      match p.mapEntryOf f with
      | some e => do
          let key ← (p.entryField e 1).bind (fieldType fuel)
          let value ← (p.entryField e 2).bind (fieldType fuel)
          some (.map key value)
      | none => some (.ofKind f.kind)

/-- Real (non-synthetic) oneof of a field. -/
def oneofOf (m : p.Msg) (f : p.Field) : Option String :=
  ((f.oneof.bind fun i => (p.message m).oneofs[i]?).filter (!·.synthetic)).map (·.name)

/-- The label as written in the source (`none` when implicit). -/
def explicitLabel (m : p.Msg) (f : p.Field) : Option Label :=
  if (p.oneofOf m f).isSome || (p.mapEntryOf f).isSome then none
  else
    match (p.message m).file.dialect with
    | .proto3 =>
        if f.label = .repeated then some .repeated
        else if f.proto3Optional then some .optional
        else none
    | .proto2 => some f.label

def isRequired (m : p.Msg) (f : p.Field) : Bool :=
  p.explicitLabel m f == some .required

/-- The name of a message without its package. -/
def localName (m : p.Msg) : String :=
  let package := (p.message m).file.package
  let full := (p.message m).fullName
  if package ≠ "" ∧ (package ++ ".").toList <+: full.toList then
    String.ofList (full.toList.drop (package.toList.length + 1))
  else full

/-- The path under which a message is compared for a field. -/
def localPath (m : p.Msg) : List String :=
  ((p.localName m).toList.splitOn '.').map String.ofList

/-- Messages to compare at one level. -/
def named (ms : List p.Msg) : List p.Msg := ms.filter fun m => !(p.message m).mapEntry

/-- Fields outside real oneofs. -/
def regular (m : p.Msg) : List p.Field :=
  (p.message m).fields.filter fun f => (p.oneofOf m f).isNone

/-- The real oneofs of a message, each with its fields. -/
def oneofs (m : p.Msg) : List (String × List p.Field) :=
  ((p.message m).oneofs.zipIdx.filter (!·.1.synthetic)).map fun (o, i) =>
    (o.name, (p.message m).fields.filter fun f => f.oneof == some i)

end Pool

/-! ### Differences -/

inductive DiffKind where
  | packageChanged
  | messageAdded | messageMoved | messageRemoved
  | fieldAdded | fieldRemoved | fieldNameChanged | fieldKindChanged | fieldScalarKindChanged
  | fieldNamedTypeChanged | fieldNumericLabelChanged | fieldStringOrBytesLabelChanged
  | requiredFieldAdded | requiredFieldRemoved
  | oneofAdded | oneofRemoved | oneofFieldAdded | oneofFieldRemoved
  | multipleFieldsMovedToOneof | fieldMovedToExistingOneof
  deriving DecidableEq, Repr

namespace DiffKind

def compatible : List DiffKind :=
  [messageAdded, messageMoved, fieldAdded, fieldRemoved, fieldNameChanged,
    fieldStringOrBytesLabelChanged, oneofAdded, oneofRemoved, oneofFieldAdded]

def name : DiffKind → String
  | packageChanged => "PACKAGE_CHANGED"
  | messageAdded => "MESSAGE_ADDED"
  | messageMoved => "MESSAGE_MOVED"
  | messageRemoved => "MESSAGE_REMOVED"
  | fieldAdded => "FIELD_ADDED"
  | fieldRemoved => "FIELD_REMOVED"
  | fieldNameChanged => "FIELD_NAME_CHANGED"
  | fieldKindChanged => "FIELD_KIND_CHANGED"
  | fieldScalarKindChanged => "FIELD_SCALAR_KIND_CHANGED"
  | fieldNamedTypeChanged => "FIELD_NAMED_TYPE_CHANGED"
  | fieldNumericLabelChanged => "FIELD_NUMERIC_LABEL_CHANGED"
  | fieldStringOrBytesLabelChanged => "FIELD_STRING_OR_BYTES_LABEL_CHANGED"
  | requiredFieldAdded => "REQUIRED_FIELD_ADDED"
  | requiredFieldRemoved => "REQUIRED_FIELD_REMOVED"
  | oneofAdded => "ONEOF_ADDED"
  | oneofRemoved => "ONEOF_REMOVED"
  | oneofFieldAdded => "ONEOF_FIELD_ADDED"
  | oneofFieldRemoved => "ONEOF_FIELD_REMOVED"
  | multipleFieldsMovedToOneof => "MULTIPLE_FIELDS_MOVED_TO_ONEOF"
  | fieldMovedToExistingOneof => "FIELD_MOVED_TO_EXISTING_ONEOF"

/-- What a difference at a path says of the reader (`rl`) and the writer (`wl`). -/
def description (p rl wl : String) : DiffKind → String
  | packageChanged => "The package at '" ++ p ++ "' in the " ++ rl
      ++ " schema does not match the package in the " ++ wl ++ " schema"
  | messageRemoved => "The " ++ rl ++ " schema is missing a MESSAGE type at path '" ++ p
      ++ "' in the " ++ wl ++ " schema"
  | fieldKindChanged => "The type of a field at path '" ++ p ++ "' in the " ++ rl
      ++ " schema does not match the " ++ wl ++ " schema"
  | fieldScalarKindChanged => "The kind of a SCALAR field at path '" ++ p ++ "' in the " ++ rl
      ++ " schema does not match its kind in the " ++ wl ++ " schema"
  | fieldNamedTypeChanged => "The type of a MESSAGE field at path '" ++ p ++ "' in the " ++ rl
      ++ " schema does not match its type in the " ++ wl ++ " schema"
  | fieldNumericLabelChanged => "The label for a NUMERIC field at path '" ++ p ++ "' in the " ++ rl
      ++ " schema does not match its label in the " ++ wl ++ " schema"
  | requiredFieldAdded => "A required field  at path '" ++ p ++ "' in the " ++ rl
      ++ " schema is missing in the " ++ wl ++ " schema"
  | requiredFieldRemoved => "The " ++ rl ++ " schema is missing a required field at path: '" ++ p
      ++ "' in the " ++ wl ++ " schema"
  | oneofFieldRemoved => "The " ++ rl ++ " schema is missing a oneof field at path '" ++ p
      ++ "' in the " ++ wl ++ " schema"
  | multipleFieldsMovedToOneof => "Multiple fields in the oneof at path '" ++ p ++ "' in the " ++ rl
      ++ " schema are outside a oneof in the " ++ wl ++ " schema"
  | fieldMovedToExistingOneof => "A field in the oneof at path '" ++ p ++ "' in the " ++ rl
      ++ " schema is outside an existing oneof in the " ++ wl ++ " schema"
  | _ => ""

end DiffKind

structure Diff where
  kind : DiffKind
  path : String
  deriving DecidableEq, Repr

namespace Diff

/-- A difference at a path. -/
def add (path : List String) (kind : DiffKind) : Diff := ⟨kind, "#/" ++ "/".intercalate path⟩

def incompatible (d : Diff) : Bool := !DiffKind.compatible.contains d.kind

def render (d : Diff) (rl wl : String) : String :=
  "\x7berrorType:\"" ++ d.kind.name ++ "\", description:\"" ++ d.kind.description d.path rl
    wl ++ "\"\x7d"

end Diff

/-! ### Comparing -/

section Compare

-- `w` is the writer's schema ("original"), `r` the reader's ("update").
variable (w r : ProtoSchema)

/-- Compare two messages, given the stack and the path. -/
abbrev Compare := List String → List String → w.Msg → r.Msg → Option (List Diff)

/-- The types come from the same reference, or both from the schema itself. -/
def sameOrigin (om : w.Msg) (um : r.Msg) : Bool :=
  let of := (w.pool.message om).file.name
  let uf := (r.pool.message um).file.name
  (of == rootFile && uf == rootFile)
    || (of == uf && (w.deps.lookup of).any fun a => r.deps.lookup uf == some a)

variable {w r}

section Levels

-- Whether types of the same origin are skipped, how far a field's type is followed, and how two
-- messages are compared.
variable (shortcut : Bool) (fuel : Nat) (rec : Compare w r) (stack path : List String)

def compareMessageTypes (om : w.Msg) (um : r.Msg) : Option (List Diff) :=
  if w.pool.localName om ≠ r.pool.localName um then some [.add path .fieldNamedTypeChanged]
  else if shortcut && sameOrigin w r om um then some []
  else do
    let diffs ← rec stack (w.pool.localPath om) om um
    some (if diffs.any Diff.incompatible then diffs
      ++ [.add path .fieldNamedTypeChanged] else diffs)

/-- Scalars and enums: the group on the wire, then the labels if both are written. -/
def compareScalars (ol ul : Option Label) (ok uk : ScalarKind) : List Diff :=
  if ok ≠ uk then [.add path .fieldScalarKindChanged]
  else
    match ol, ul with
    | some a, some b =>
        if a ≠ b then
          [.add path (if ok = .stringOrBytes then .fieldStringOrBytesLabelChanged
            else .fieldNumericLabelChanged)]
        else []
    | _, _ => []

def compareLabelsAndTypes (ol ul : Option Label) :
    FieldType w.Msg → FieldType r.Msg → Option (List Diff)
  | .map ok ov, .map uk uv => do
      let keys ← compareLabelsAndTypes none none ok uk
      let values ← compareLabelsAndTypes none none ov uv
      some (keys ++ values)
  | .message om, .message um => compareMessageTypes shortcut rec stack path om um
  | ot, ut =>
      if ot.kind ≠ ut.kind then some [.add path .fieldKindChanged]
      else some (compareScalars path ol ul ot.scalarKind ut.scalarKind)

/-- Two fields of one number; `o` and `u` are the messages that declare them. -/
def compareField (o : w.Msg) (u : r.Msg) (a : w.Field)
    (b : r.Field) : Option (List Diff) := do
  let ot ← w.pool.fieldType fuel a
  let ut ← r.pool.fieldType fuel b
  let types ← compareLabelsAndTypes shortcut rec stack path (w.pool.explicitLabel o a)
    (r.pool.explicitLabel u b) ot ut
  some ((if a.name ≠ b.name then [.add path .fieldNameChanged] else []) ++ types)

/-- One field of a oneof of the reader: it may have been outside a oneof, and leaves the fields
there, or inside one. The counts are of those moved and of those that were in a oneof. -/
def takeMoved (oneofTags : List UInt32)
    (st : List w.Field × Nat × Nat) (f : r.Field) :
    List w.Field × Nat × Nat :=
  match st.1.findIdx? (·.number == f.number) with
  | some i => (st.1.eraseIdx i, st.2.1 + 1, st.2.2)
  | none => (st.1, st.2.1, if oneofTags.contains f.number then st.2.2 + 1 else st.2.2)

/-- Fields of the writer that the reader has moved into a oneof. -/
def compareMoved (oneofTags : List UInt32)
    (st : List w.Field × List Diff)
    (oneof : String × List r.Field) :
    List w.Field × List Diff :=
  let (left, moved, existing) := oneof.2.foldl (takeMoved oneofTags) (st.1, 0, 0)
  let diffs :=
    if 1 < moved then [.add (path ++ [oneof.1]) .multipleFieldsMovedToOneof]
    else if moved = 1 ∧ 0 < existing then [.add (path ++ [oneof.1]) .fieldMovedToExistingOneof]
    else []
  (left, st.2 ++ diffs)

/-- The fields of a oneof that both have. -/
def compareOneof (o : w.Msg) (u : r.Msg) (of : List w.Field)
    (uf : List r.Field) : Option (List Diff) :=
  collect (unionOrder id (of.map (·.number)) (uf.map (·.number))) fun tag =>
    let path := path ++ [toString tag]
    match of.find? (·.number == tag), uf.find? (·.number == tag) with
    | some _, none => some [.add path .oneofFieldRemoved]
    | none, some _ => some [.add path .oneofFieldAdded]
    | some a, some b => compareField shortcut fuel rec stack path o u a b
    | none, none => some []

def compareOneofs (o : w.Msg) (u : r.Msg) : Option (List Diff) :=
  let oo := w.pool.oneofs o
  let uo := r.pool.oneofs u
  collect (unionOrder javaHash (oo.map (·.1)) (uo.map (·.1))) fun name =>
    let path := path ++ [name]
    match oo.lookup name, uo.lookup name with
    | some _, none => some [.add path .oneofRemoved]
    | none, some _ => some [.add path .oneofAdded]
    | some of, some uf => compareOneof shortcut fuel rec stack path o u of uf
    | none, none => some []

/-- The fields outside oneofs, those of the writer without the moved ones. -/
def compareRegular (o : w.Msg) (u : r.Msg)
    (left : List w.Field) : Option (List Diff) :=
  let updated := r.pool.regular u
  -- The order of the writer's numbers was fixed before any field moved.
  let remaining := (mapOrder id ((w.pool.regular o).map (·.number))).filter fun t =>
    left.any (·.number == t)
  let tags := ((JavaSet.fromCollection remaining).extend
    (mapOrder id (updated.map (·.number)))).ordered id
  collect tags fun tag =>
    let path := path ++ [toString tag]
    match left.find? (·.number == tag), updated.find? (·.number == tag) with
    | some f, none =>
        some [.add path (if w.pool.isRequired o f then .requiredFieldRemoved else .fieldRemoved)]
    | none, some f =>
        some [.add path (if r.pool.isRequired u f then .requiredFieldAdded else .fieldAdded)]
    | some a, some b => compareField shortcut fuel rec stack path o u a b
    | none, none => some []

def compareMessageBody (o : w.Msg) (u : r.Msg) : Option (List Diff) := do
  let oneofTags := (w.pool.oneofs o).flatMap fun x => x.2.map (·.number)
  let (left, moved) := (r.pool.oneofs u).foldl (compareMoved path oneofTags) (w.pool.regular o, [])
  let oneofs ← compareOneofs shortcut fuel rec stack path o u
  let fields ← compareRegular shortcut fuel rec stack path o u left
  some (moved ++ oneofs ++ fields)

/-- The messages declared at one level, by name. -/
def compareTypes (os : List w.Msg) (us : List r.Msg) : Option (List Diff) :=
  let on := os.map fun m => (w.pool.message m).name
  let un := us.map fun m => (r.pool.message m).name
  collect (unionOrder javaHash on un) fun name =>
    let path := path ++ [name]
    match os.zipIdx.find? (fun p => (w.pool.message p.1).name == name),
      us.zipIdx.find? (fun p => (r.pool.message p.1).name == name) with
    | some _, none => some [.add path .messageRemoved]
    | none, some _ => some [.add path .messageAdded]
    | some (o, i), some (u, j) => do
        let diffs ← rec stack path o u
        some (if i ≠ j then diffs ++ [.add path .messageMoved] else diffs)
    | none, none => some []

end Levels

/-- Two messages: what they declare unless it is being compared already, then their nested ones. -/
def compareMessage (shortcut : Bool) : Nat → Compare w r
  | 0, _, _, _, _ => none
  | fuel + 1, stack, path, o, u => do
      let key := (w.pool.message o).fullName
      let body ← (if stack.contains key then some []
        else compareMessageBody shortcut fuel (compareMessage shortcut fuel)
          (stack ++ [key]) path o u)
      let types ← compareTypes (compareMessage shortcut fuel) stack path
        (w.pool.named (w.pool.message o).children) (r.pool.named (r.pool.message u).children)
      some (body ++ types)

/-- Every difference between two schemas. -/
def compareSchemas (shortcut : Bool) (fuel : Nat) (w r : ProtoSchema) : Option (List Diff) :=
  match w.root, r.root with
  | some wf, some rf => do
      let types ← compareTypes (compareMessage shortcut fuel) [] [] (w.pool.named wf.messages)
        (r.pool.named rf.messages)
      some ((if wf.package ≠ rf.package then [.add [] .packageChanged] else []) ++ types)
  | _, _ => some []

/-- `can_read`: can the reader read data written with the writer's schema? -/
def canRead (fuel : Nat) (reader writer : ProtoSchema) (labels : Labels) : Option (List String) :=
  (compareSchemas true fuel writer reader).map fun diffs =>
    (diffs.filter Diff.incompatible).map fun d => d.render labels.reader labels.writer

end Compare

end SchemaRegistry.Proto
