import SchemaRegistry.Schema.Proto.Print

/-!
Types of a descriptor and of its text. A full name is printed without its leading dot and is then
looked up from the scope it stands in, so it stands for the type it named exactly when no scope
around it declares its first part. A field is taken for a map by the last part of its type's name
alone, so it keeps its type when it is of that map entry.
-/

namespace SchemaRegistry.Proto

open Lib

/-! ### What is declared -/

inductive SymbolKind where
  | package | message | enum | service
  deriving DecidableEq, Repr

/-- Full names and what they are. -/
abbrev Declared := List (List String × SymbolKind)

def enumSymbols (outer : List String) (enums : List EnumDescriptor) : Declared :=
  enums.map fun e => (outer ++ [e.name], .enum)

mutual

def messageSymbols (outer : List String) : MessageDescriptor → Declared
  | ⟨name, _, nested, enums, _, _, _, _, _, _, _⟩ =>
      (outer ++ [name], .message) :: nestedSymbols (outer ++ [name]) nested
        ++ enumSymbols (outer ++ [name]) enums

def nestedSymbols (outer : List String) : List MessageDescriptor → Declared
  | [] => []
  | m :: rest => messageSymbols outer m ++ nestedSymbols outer rest

end

/-- What a file declares: its package with the packages around it, and all of its declarations. -/
def symbols (fd : FileDescriptor) : Declared :=
  (fd.scope.inits.filter fun p => p ≠ []).map (·, .package)
  ++ nestedSymbols fd.scope fd.messages ++ enumSymbols fd.scope fd.enums
  ++ fd.services.map fun s => (fd.scope ++ [s.name], .service)

/-- Every declaration is a scope; messages and enums are types. -/
def table (declared : Declared) : Scopes String where
  isType path := declared.any fun d => d.1 = path && (d.2 = .message || d.2 = .enum)
  isScope path := declared.any fun d => d.1 = path

/-! ### What a type means -/

inductive ProtoType where
  | scalar (s : Scalar)
  | named (path : List String)
  deriving DecidableEq, Repr

def splitDots (text : String) : List String := (text.toList.splitOn '.').map String.ofList

def dotted (path : List String) : String :=
  String.ofList (['.'].intercalate (path.map String.toList))

def scalars : List Scalar :=
  [.double, .float, .int32, .int64, .uint32, .uint64, .sint32, .sint64, .fixed32,
    .fixed64, .sfixed32,
    .sfixed64, .bool, .string, .bytes]

def scalarOf (text : String) : Option Scalar := scalars.find? fun s => s.keyword = text

/-- The type a text stands for in a scope. -/
def denotes (t : Scopes String) (scope : List String) (text : String) : Option ProtoType :=
  match scalarOf text with
  | some s => some (.scalar s)
  | none => (t.resolve scope (splitDots text)).map .named

/-- The type a descriptor names; names are full and start with a dot. -/
def TypeSpec.means : TypeSpec → Option ProtoType
  | .scalar s => some (.scalar s)
  | .named name =>
      match name.toList with
      | '.' :: _ => some (.named (splitDots (qualified name)))
      | _ => none

/-- The type printed is the type that was named. -/
def Piece.Keeps (t : Scopes String) : Piece → Prop
  | .raw _ => True
  | .type scope spec printed => ∃ type, spec.means = some type ∧ denotes t scope printed = some type
  | .map scope spec entry => spec.means = some (.named (scope ++ [entry]))

/-- A scalar, or the full name of a type. -/
def TypeSpec.Known (t : Scopes String) : TypeSpec → Prop
  | .scalar _ => True
  | .named name => ∃ path, path ≠ [] ∧ (∀ part ∈ path, '.' ∉ part.toList) ∧
      name = "." ++ dotted path ∧ t.isType path = true

/-- No scope around declares the first part of a name, and the name is not a keyword. -/
def TypeSpec.Clear (t : Scopes String) (scope : List String) : TypeSpec → Prop
  | .scalar _ => True
  | .named name => scalarOf (qualified name) = none ∧
      ∀ outer, outer ≠ [] → outer <+: scope → t.captures outer (splitDots (qualified name)) = false

section Types

variable {t : Scopes String} {scope : List String}

theorem toList_full (path : List String) :
    ("." ++ dotted path).toList = '.' :: (dotted path).toList := by simp

theorem qualified_full (path : List String) : qualified ("." ++ dotted path) = dotted path := by
  rw [qualified, toList_full]
  exact String.ofList_toList

theorem splitDots_dotted {path : List String} (hne : path ≠ [])
    (hparts : ∀ part ∈ path, '.' ∉ part.toList) : splitDots (dotted path) = path := by
  have hdot : ∀ l ∈ path.map String.toList, '.' ∉ l := by
    intro l hl
    obtain ⟨part, hpart, rfl⟩ := List.mem_map.mp hl
    exact hparts part hpart
  rw [splitDots, dotted, String.toList_ofList, List.splitOn_intercalate '.' hdot
    (by simpa using hne),
    List.map_map]
  simp [Function.comp_def]

theorem scalarOf_keyword (s : Scalar) : scalarOf s.keyword = some s := by
  cases s <;> decide

/-- How a type is printed. -/
def TypeSpec.text : TypeSpec → String
  | .scalar s => s.keyword
  | .named name => qualified name

theorem FieldDescriptor.typeText_eq (f : FieldDescriptor) : f.typeText = f.spec.text := by
  rw [typeText, spec, kindOrDefault, typeNameOrDefault]
  cases f.kind with
  | none => cases f.typeName <;> rfl
  | some kind => cases kind <;> rfl

theorem keeps_type_iff {spec : TypeSpec} (h : spec.Known t) :
    (Piece.type scope spec spec.text).Keeps t ↔ spec.Clear t scope := by
  cases spec with
  | scalar s =>
    simp [Piece.Keeps, TypeSpec.means, TypeSpec.text, TypeSpec.Clear, denotes, scalarOf_keyword]
  | named name =>
    obtain ⟨path, hne, hparts, rfl, htype⟩ := h
    simp only [Piece.Keeps, TypeSpec.means, TypeSpec.text, TypeSpec.Clear, toList_full,
      qualified_full, splitDots_dotted hne hparts, denotes, ← Scopes.resolve_eq_self htype]
    cases scalarOf (dotted path) <;> simp

end Types

/-! ### Fields -/

section Lines

variable (t : Scopes String) (scope : List String)

/-- The key and the value of a map entry. -/
def entryFields (entry : MessageDescriptor) : List FieldDescriptor :=
  (entry.fields.find? (·.number = 1)).toList ++ (entry.fields.find? (·.number = 2)).toList

/-- A field taken for a map is of the entry it is taken for; every type that is written is clear. -/
def FieldClear (nested : List MessageDescriptor) (f : FieldDescriptor) : Prop :=
  match mapEntry nested f with
  | some entry => f.spec.means = some (.named (scope ++ [entry.name])) ∧
      ∀ x ∈ entryFields entry, x.spec.Clear t scope
  | none => f.spec.Clear t scope

/-- The types of a message's fields and extensions are known. -/
structure MessageDescriptor.Known (m : MessageDescriptor) : Prop where
  fields : ∀ f ∈ m.fields, f.spec.Known t
  nested : ∀ n ∈ m.nested, ∀ f ∈ n.fields, f.spec.Known t
  extensions : ∀ x ∈ m.extensions, x.spec.Known t ∧ (TypeSpec.named x.extendee).Known t

def ExtensionClear (x : FieldDescriptor) : Prop :=
  (TypeSpec.named x.extendee).Clear t scope ∧ x.spec.Clear t scope

structure MessageDescriptor.Clear (m : MessageDescriptor) : Prop where
  fields : ∀ f ∈ m.fields, FieldClear t scope m.nested f
  extensions : ∀ x ∈ m.extensions, ExtensionClear t scope x

variable {t scope}

theorem keeps_piece {f : FieldDescriptor} (h : f.spec.Known t) :
    (f.piece scope).Keeps t ↔ f.spec.Clear t scope := by
  rw [FieldDescriptor.piece, f.typeText_eq]
  exact keeps_type_iff h

@[simp] theorem keeps_raw (s : String) : (Piece.raw s).Keeps t := trivial

@[simp] theorem keeps_line (s : String) : (line s).Keeps t := trivial

@[simp] theorem keeps_map {spec : TypeSpec} {entry : String} :
    (Piece.map scope spec entry).Keeps t ↔ spec.means = some (.named (scope ++ [entry])) := Iff.rfl

theorem mem_of_mapEntry {nested : List MessageDescriptor} {f : FieldDescriptor}
    {entry : MessageDescriptor} (h : mapEntry nested f = some entry) : entry ∈ nested := by
  rw [mapEntry] at h
  split at h
  · exact List.mem_of_find?_eq_some h
  · cases h

theorem keeps_entryType {entry : MessageDescriptor} (h : ∀ x ∈ entry.fields, x.spec.Known t)
    (number : Int) : (∀ p ∈ entryType scope entry number, p.Keeps t) ↔
      ∀ x ∈ (entry.fields.find? (·.number = number)).toList, x.spec.Clear t scope := by
  rw [entryType]
  cases hfind : entry.fields.find? (·.number = number) with
  | none => simp
  | some x => simpa using keeps_piece (h x (List.mem_of_find?_eq_some hfind))

theorem keeps_fieldLine {nested : List MessageDescriptor} {f : FieldDescriptor}
    (hf : f.spec.Known t) (hnested : ∀ n ∈ nested, ∀ x ∈ n.fields, x.spec.Known t) (depth : Nat)
    (proto3 inOneof : Bool) :
    (∀ p ∈ fieldLine scope nested f depth proto3 inOneof, p.Keeps t) ↔
      FieldClear t scope nested f := by
  rw [fieldLine, FieldClear]
  cases hentry : mapEntry nested f with
  | none => simp [keeps_piece hf]
  | some entry =>
    have hknown := hnested entry (mem_of_mapEntry hentry)
    simp only [List.forall_mem_append, keeps_entryType hknown, entryFields]
    simp [and_assoc]

section Blocks

variable {m : MessageDescriptor} (hm : m.Known t) (depth : Nat) (proto3 : Bool)
include hm

theorem keeps_oneof (idx : Int) :
    (∀ p ∈ (m.fields.filter (·.oneofIndex = some idx)).flatMap fun f =>
      fieldLine scope m.nested f (depth + 2) proto3 true, p.Keeps t) ↔
      ∀ f ∈ m.fields, f.oneofIndex = some idx → FieldClear t scope m.nested f := by
  simp only [List.mem_flatMap, List.mem_filter, decide_eq_true_eq, forall_exists_index, and_imp]
  constructor
  · intro h f hf hidx
    exact (keeps_fieldLine (hm.fields f hf) hm.nested _ proto3 true).mp fun p hp =>
      h p f hf hidx hp
  · intro h p f hf hidx hp
    exact (keeps_fieldLine (hm.fields f hf) hm.nested _ proto3 true).mpr (h f hf hidx) p hp

/-- Every field is printed, by itself or with its oneof. -/
theorem clear_of_fieldBlocks (rest : List FieldDescriptor) (printed : List Int)
    (hrest : ∀ f ∈ rest, f ∈ m.fields)
    (hprinted : ∀ idx ∈ printed, ∀ f ∈ m.fields, f.oneofIndex = some idx →
      FieldClear t scope m.nested f)
    (h : ∀ p ∈ fieldBlocks scope m depth proto3 rest printed, p.Keeps t) :
    ∀ f ∈ rest, FieldClear t scope m.nested f := by
  induction rest generalizing printed with
  | nil => exact fun f hf => absurd hf List.not_mem_nil
  | cons f rest ih =>
    have hf := hrest f List.mem_cons_self
    have hrest' : ∀ g ∈ rest, g ∈ m.fields := fun g hg => hrest g (List.mem_cons_of_mem f hg)
    have hlone : (∀ p ∈ fieldLine scope m.nested f (depth + 1) proto3 false
        ++ fieldBlocks scope m depth proto3 rest printed, p.Keeps t) →
        ∀ g ∈ f :: rest, FieldClear t scope m.nested g := by
      intro h
      rw [List.forall_mem_append] at h
      exact List.forall_mem_cons.mpr
        ⟨(keeps_fieldLine (hm.fields f hf) hm.nested _ proto3 false).mp h.1,
          ih printed hrest' hprinted h.2⟩
    rw [fieldBlocks] at h
    split at h
    · rename_i idx hidx
      split at h
      · split at h
        · rename_i hdone
          exact List.forall_mem_cons.mpr
            ⟨hprinted idx (List.contains_iff_mem.mp hdone) f hf hidx, ih printed hrest' hprinted h⟩
        · simp only [List.forall_mem_append] at h
          have hall := (keeps_oneof hm depth proto3 idx).mp h.1.1.2
          refine List.forall_mem_cons.mpr ⟨hall f hf hidx, ih _ hrest' ?_ h.2⟩
          intro j hj
          rcases List.mem_append.mp hj with hj | hj
          · exact hprinted j hj
          · rw [List.mem_singleton.mp hj]
            exact hall
      · exact hlone h
    · exact hlone h

theorem fieldBlocks_keeps (hclear : ∀ f ∈ m.fields, FieldClear t scope m.nested f)
    (rest : List FieldDescriptor) (printed : List Int) (hrest : ∀ f ∈ rest, f ∈ m.fields) :
    ∀ p ∈ fieldBlocks scope m depth proto3 rest printed, p.Keeps t := by
  induction rest generalizing printed with
  | nil => exact fun p hp => absurd hp List.not_mem_nil
  | cons f rest ih =>
    have hf := hrest f List.mem_cons_self
    have hmore := fun printed => ih printed fun g hg => hrest g (List.mem_cons_of_mem f hg)
    have hlone := List.forall_mem_append.mpr
      ⟨(keeps_fieldLine (hm.fields f hf) hm.nested (depth + 1) proto3 false).mpr (hclear f hf),
        hmore printed⟩
    rw [fieldBlocks]
    split
    · rename_i idx _
      split
      · split
        · exact hmore printed
        · simp only [List.forall_mem_append]
          exact ⟨⟨⟨by simp, (keeps_oneof hm depth proto3 idx).mpr fun g hg _ => hclear g hg⟩,
            by simp⟩, hmore _⟩
      · exact hlone
    · exact hlone

theorem keeps_fieldBlocks : (∀ p ∈ fieldBlocks scope m depth proto3 m.fields [], p.Keeps t) ↔
    ∀ f ∈ m.fields, FieldClear t scope m.nested f :=
  ⟨clear_of_fieldBlocks hm depth proto3 m.fields [] (fun _ hf => hf)
      (fun _ hidx => absurd hidx List.not_mem_nil),
    fun h => fieldBlocks_keeps hm depth proto3 h m.fields [] fun _ hf => hf⟩

end Blocks

/-! ### Extensions -/

theorem mem_firsts {names : List String} {n : String} : n ∈ firsts names ↔ n ∈ names := by
  have hfold : ∀ seen : List String, n ∈ names.foldl
      (fun seen n => if seen.contains n then seen else seen ++ [n]) seen ↔ n ∈ seen ∨
        n ∈ names := by
    induction names with
    | nil => simp
    | cons a names ih =>
      intro seen
      rw [List.foldl_cons, ih]
      split
      · rename_i hmem
        have ha := List.contains_iff_mem.mp hmem
        simp only [List.mem_cons]
        constructor
        · rintro (h | h)
          · exact .inl h
          · exact .inr (.inr h)
        · rintro (h | rfl | h)
          · exact .inl h
          · exact .inl ha
          · exact .inr h
      · simp [or_assoc]
  rw [firsts, hfold]
  simp

theorem fieldClear_nil {f : FieldDescriptor} : FieldClear t scope [] f ↔ f.spec.Clear t scope := by
  have hnone : mapEntry [] f = none := by
    rw [mapEntry]
    split <;> rfl
  rw [FieldClear, hnone]

theorem keeps_extensions {exts : List FieldDescriptor}
    (h : ∀ x ∈ exts, x.spec.Known t ∧ (TypeSpec.named x.extendee).Known t) (depth : Nat)
    (proto3 : Bool) : (∀ p ∈ extensions scope exts depth proto3, p.Keeps t) ↔
      ∀ x ∈ exts, ExtensionClear t scope x := by
  have hline : ∀ x ∈ exts, (∀ p ∈ fieldLine scope [] x (depth + 1) proto3 false, p.Keeps t) ↔
      x.spec.Clear t scope := by
    intro x hx
    rw [keeps_fieldLine (h x hx).1 (fun n hn => absurd hn List.not_mem_nil), fieldClear_nil]
  have hhead : ∀ x ∈ exts, (Piece.type scope (.named x.extendee) (qualified x.extendee)).Keeps t ↔
      (TypeSpec.named x.extendee).Clear t scope := fun x hx => keeps_type_iff (h x hx).2
  rw [extensions]
  simp only [List.mem_flatMap, mem_firsts, List.mem_map]
  constructor
  · intro hall x hx
    have hblock := fun p hp => hall p ⟨x.extendee, ⟨x, hx, rfl⟩, hp⟩
    simp only [List.forall_mem_append, List.forall_mem_cons] at hblock
    refine ⟨(hhead x hx).mp hblock.1.1.2.1, (hline x hx).mp fun p hp => ?_⟩
    exact hblock.1.2 p (List.mem_flatMap.mpr ⟨x, by simp [hx], hp⟩)
  · rintro hall p ⟨ext, ⟨x, hx, rfl⟩, hp⟩
    revert p
    simp only [List.forall_mem_append, List.forall_mem_cons]
    refine ⟨⟨⟨by simp, (hhead x hx).mpr (hall x hx).1, by simp⟩, fun p hp => ?_⟩, by simp⟩
    obtain ⟨y, hy, hp⟩ := List.mem_flatMap.mp hp
    have hy := (List.mem_filter.mp hy).1
    exact (hline y hy).mpr (hall y hy).2 p hp

/-! ### Declarations without types -/

theorem reservedRanges_keeps (pad : String) (ranges : List (Int × Int)) (names : List String)
    (max : Int) : ∀ p ∈ reservedRanges pad ranges names max, p.Keeps t := by
  rw [reservedRanges, List.forall_mem_append]
  constructor <;> split <;> simp

theorem enumeration_keeps (e : EnumDescriptor) (depth : Nat) :
    ∀ p ∈ enumeration e depth, p.Keeps t := by
  simp only [enumeration, List.forall_mem_append]
  refine ⟨⟨⟨⟨by simp, ?_⟩, List.forall_mem_map.mpr fun v _ => keeps_line _⟩,
    reservedRanges_keeps _ _ _ _⟩, by simp⟩
  split <;> simp

theorem header_keeps (fd : FileDescriptor) : ∀ p ∈ fd.header, p.Keeps t := by
  simp only [FileDescriptor.header, List.forall_mem_append]
  refine ⟨⟨⟨by simp, ?_⟩, ?_⟩, ?_⟩
  · cases fd.package.filter fun p => p ≠ "" <;> simp
  · split
    · simp
    · exact List.forall_mem_cons.mpr ⟨keeps_line _, List.forall_mem_map.mpr fun d _ => keeps_line _⟩
  · split
    · split <;> simp
    · simp

end Lines

/-! ### Messages -/

mutual

/-- The messages that are printed, with their full names: all but map entries. -/
def printedMessages (outer : List String) :
    MessageDescriptor → List (List String × MessageDescriptor)
  | ⟨name, fields, nested, enums, extensionRange, exts, oneofs, entry, deprecated, reserved,
      reservedName⟩ =>
      (outer ++ [name], ⟨name, fields, nested, enums, extensionRange, exts, oneofs, entry,
        deprecated, reserved, reservedName⟩) :: printedNested (outer ++ [name]) nested

def printedNested (outer : List String) :
    List MessageDescriptor → List (List String × MessageDescriptor)
  | [] => []
  | n :: rest =>
      (if n.mapEntry = some true then [] else printedMessages outer n) ++ printedNested outer rest

end

mutual

theorem keeps_message {t : Scopes String} {proto3 : Bool} :
    ∀ (m : MessageDescriptor) (outer : List String) (depth : Nat),
      (∀ x ∈ printedMessages outer m, x.2.Known t) →
      ((∀ p ∈ message outer depth proto3 m, p.Keeps t) ↔
        ∀ x ∈ printedMessages outer m, x.2.Clear t x.1)
  | ⟨name, fields, nested, enums, extensionRange, exts, oneofs, entry, deprecated, reserved,
      reservedName⟩, outer, depth, hknown => by
      rw [printedMessages, List.forall_mem_cons] at hknown
      obtain ⟨hself, hrest⟩ := hknown
      have hfields : (∀ p ∈ fieldBlocks (outer ++ [name]) _ depth proto3 _ [], p.Keeps t) ↔ _ :=
        keeps_fieldBlocks hself depth proto3
      have hnested : (∀ p ∈ nestedMessages (outer ++ [name]) (depth + 1) proto3 nested, p.Keeps t) ↔
          _ := keeps_nestedMessages nested (outer ++ [name]) (depth + 1) hrest
      have hexts : (∀ p ∈ extensions (outer ++ [name]) exts (depth + 1) proto3, p.Keeps t) ↔ _ :=
        keeps_extensions hself.extensions (depth + 1) proto3
      rw [message, printedMessages]
      simp only [List.forall_mem_append, List.forall_mem_cons, hnested, hexts]
      constructor
      · rintro ⟨⟨⟨⟨⟨⟨⟨-, h₁⟩, h₂⟩, -⟩, -⟩, -⟩, h₃⟩, -⟩
        exact ⟨⟨hfields.mp h₁, h₃⟩, h₂⟩
      · rintro ⟨⟨h₁, h₃⟩, h₂⟩
        refine ⟨⟨⟨⟨⟨⟨⟨⟨by simp, ?_⟩, hfields.mpr h₁⟩, h₂⟩, ?_⟩, ?_⟩, reservedRanges_keeps _ _ _ _⟩,
          h₃⟩, by simp⟩
        · split <;> simp
        · intro p hp
          obtain ⟨e, -, hp⟩ := List.mem_flatMap.mp hp
          exact enumeration_keeps e _ p hp
        · exact List.forall_mem_map.mpr fun r _ => keeps_line _

theorem keeps_nestedMessages {t : Scopes String} {proto3 : Bool} :
    ∀ (ms : List MessageDescriptor) (outer : List String) (depth : Nat),
      (∀ x ∈ printedNested outer ms, x.2.Known t) →
      ((∀ p ∈ nestedMessages outer depth proto3 ms, p.Keeps t) ↔
        ∀ x ∈ printedNested outer ms, x.2.Clear t x.1)
  | [], outer, depth, _ => by simp [nestedMessages, printedNested]
  | n :: rest, outer, depth, hknown => by
      rw [printedNested, List.forall_mem_append] at hknown
      rw [nestedMessages, printedNested, List.forall_mem_append, List.forall_mem_append,
        keeps_nestedMessages rest outer depth hknown.2]
      refine and_congr_left fun _ => ?_
      have hone := hknown.1
      split
      · simp
      · rename_i hn
        rw [if_neg hn] at hone
        exact keeps_message n outer depth hone

end

/-! ### Files -/

section Files

variable (t : Scopes String) (fd : FileDescriptor)

def printedTop : List (List String × MessageDescriptor) :=
  fd.messages.flatMap (printedMessages fd.scope)

/-- The types of fields, extensions and methods are full names of types that are declared. -/
structure FileDescriptor.Known : Prop where
  messages : ∀ x ∈ printedTop fd, x.2.Known t
  extensions : ∀ x ∈ fd.extensions, x.spec.Known t ∧ (TypeSpec.named x.extendee).Known t
  methods : ∀ s ∈ fd.services, ∀ m ∈ s.methods,
    (TypeSpec.named m.inputType).Known t ∧ (TypeSpec.named m.outputType).Known t

/-- No type is written where something around it declares the first part of its name, and no field
is taken for a map of another type. -/
structure FileDescriptor.Clear : Prop where
  messages : ∀ x ∈ printedTop fd, x.2.Clear t x.1
  extensions : ∀ x ∈ fd.extensions, ExtensionClear t fd.scope x
  methods : ∀ s ∈ fd.services, ∀ m ∈ s.methods,
    (TypeSpec.named m.inputType).Clear t (fd.scope ++ [s.name]) ∧
    (TypeSpec.named m.outputType).Clear t (fd.scope ++ [s.name])

variable {t fd}

theorem keeps_methodLine {scope : List String} {m : MethodDescriptor}
    (h : (TypeSpec.named m.inputType).Known t ∧ (TypeSpec.named m.outputType).Known t) :
    (∀ p ∈ methodLine scope m, p.Keeps t) ↔
      (TypeSpec.named m.inputType).Clear t scope ∧ (TypeSpec.named m.outputType).Clear t scope := by
  have hin : (Piece.type scope (.named m.inputType) (qualified m.inputType)).Keeps t ↔ _ :=
    keeps_type_iff h.1
  have hout : (Piece.type scope (.named m.outputType) (qualified m.outputType)).Keeps t ↔ _ :=
    keeps_type_iff h.2
  simp [methodLine, hin, hout]

theorem keeps_services (h : fd.Known t) :
    (∀ p ∈ fd.services.flatMap (service fd.scope), p.Keeps t) ↔ ∀ s ∈ fd.services, ∀ m ∈ s.methods,
        (TypeSpec.named m.inputType).Clear t (fd.scope ++ [s.name]) ∧
        (TypeSpec.named m.outputType).Clear t (fd.scope ++ [s.name]) := by
  constructor
  · intro hall s hs m hm
    refine (keeps_methodLine (h.methods s hs m hm)).mp fun p hp => ?_
    refine hall p (List.mem_flatMap.mpr ⟨s, hs, ?_⟩)
    simp only [service, List.mem_append]
    exact .inl (.inr (List.mem_flatMap.mpr ⟨m, hm, hp⟩))
  · intro hall p hp
    obtain ⟨s, hs, hp⟩ := List.mem_flatMap.mp hp
    have hservice : ∀ p ∈ service fd.scope s, p.Keeps t := by
      simp only [service, List.forall_mem_append]
      refine ⟨⟨by simp, fun p hp => ?_⟩, by simp⟩
      obtain ⟨m, hm, hp⟩ := List.mem_flatMap.mp hp
      exact (keeps_methodLine (h.methods s hs m hm)).mpr (hall s hs m hm) p hp
    exact hservice p hp

theorem keeps_messages (h : fd.Known t) (proto3 : Bool) :
    (∀ p ∈ fd.messages.flatMap fun m => line "" :: message fd.scope 0 proto3 m, p.Keeps t) ↔
      ∀ x ∈ printedTop fd, x.2.Clear t x.1 := by
  have hone : ∀ m ∈ fd.messages, (∀ p ∈ message fd.scope 0 proto3 m, p.Keeps t) ↔
      ∀ x ∈ printedMessages fd.scope m, x.2.Clear t x.1 := fun m hm =>
    keeps_message m fd.scope 0 fun x hx => h.messages x (List.mem_flatMap.mpr ⟨m, hm, hx⟩)
  constructor
  · intro hall x hx
    obtain ⟨m, hm, hx⟩ := List.mem_flatMap.mp hx
    refine (hone m hm).mp (fun p hp => ?_) x hx
    exact hall p (List.mem_flatMap.mpr ⟨m, hm, List.mem_cons_of_mem _ hp⟩)
  · intro hall p hp
    obtain ⟨m, hm, hp⟩ := List.mem_flatMap.mp hp
    rcases List.mem_cons.mp hp with rfl | hp
    · exact keeps_line _
    · exact (hone m hm).mpr (fun x hx => hall x (List.mem_flatMap.mpr ⟨m, hm, hx⟩)) p hp

theorem keeps_enums (enums : List EnumDescriptor) :
    ∀ p ∈ enums.flatMap fun e => line "" :: enumeration e 0, p.Keeps t := by
  intro p hp
  obtain ⟨e, -, hp⟩ := List.mem_flatMap.mp hp
  rcases List.mem_cons.mp hp with rfl | hp
  · exact keeps_line _
  · exact enumeration_keeps e 0 p hp

end Files

/-- Every type that is printed stands for the type that was named exactly when no scope around it
captures its name and no field is taken for a map of another type. -/
theorem render_keeps_types (fd : FileDescriptor) (deps : Declared)
    (h : fd.Known (table (symbols fd ++ deps))) :
    (∀ p ∈ pieces fd, p.Keeps (table (symbols fd ++ deps))) ↔
      fd.Clear (table (symbols fd ++ deps)) := by
  simp only [pieces, List.forall_mem_append, keeps_messages h, keeps_services h,
    keeps_extensions h.extensions]
  constructor
  · rintro ⟨⟨⟨⟨-, hmessages⟩, -⟩, hexts⟩, hmethods⟩
    exact ⟨hmessages, hexts, hmethods⟩
  · rintro ⟨hmessages, hexts, hmethods⟩
    exact ⟨⟨⟨⟨header_keeps fd, hmessages⟩, keeps_enums fd.enums⟩, hexts⟩, hmethods⟩

/-! ### A name that a nested message captures -/

/-- A field of a type of the package, by its full name. -/
def shopField : FieldDescriptor where
  name := "item"
  number := 1
  label := .optional
  kind := some .message
  typeName := some ".shop.Item"

def plainMessage (name : String) (fields : List FieldDescriptor) (nested : List MessageDescriptor) :
    MessageDescriptor := ⟨name, fields, nested, [], [], [], [], none, none, [], []⟩

def item : MessageDescriptor := plainMessage "Item" [] []

def order (nested : List MessageDescriptor) : MessageDescriptor :=
  plainMessage "Order" [shopField] nested

/-- `shop.Item`, and an order that uses it. -/
def shopFile (nested : List MessageDescriptor) : FileDescriptor where
  dialect := some "proto3"
  package := some "shop"
  messages := [item, order nested]

/-- A message `shop` inside the order, with an `Item` of its own. -/
def innerShop : MessageDescriptor := plainMessage "shop" [] [item]

theorem printedTop_shopFile (nested : List MessageDescriptor) :
    printedTop (shopFile nested) = (["shop", "Item"], item) :: (["shop", "Order"], order nested)
      :: printedNested ["shop", "Order"] nested := by
  have hscope : (shopFile nested).scope = ["shop"] := by
    show (("shop".toList.splitOn '.').map String.ofList) = ["shop"]
    decide
  rw [printedTop, hscope]
  simp [shopFile, item, order, plainMessage, printedMessages, printedNested]

section Shop

variable {t : Scopes String} (h : t.isType ["shop", "Item"] = true)
include h

theorem known_plainMessage {name : String} {fields : List FieldDescriptor}
    {nested : List MessageDescriptor} (hfields : ∀ f ∈ fields, f = shopField)
    (hnested : ∀ n ∈ nested, n.fields = []) : (plainMessage name fields nested).Known t := by
  have hfield : shopField.spec.Known t :=
    ⟨["shop", "Item"], by simp, by decide, by decide, h⟩
  refine ⟨fun f hf => hfields f hf ▸ hfield, fun n hn f hf => ?_, by simp [plainMessage]⟩
  rw [hnested n hn] at hf
  cases hf

theorem known_shopFile {nested : List MessageDescriptor}
    (hnested : nested = [] ∨ nested = [innerShop]) : (shopFile nested).Known t := by
  have hitem : item.Known t := known_plainMessage h (by simp) (by simp)
  have hinner : innerShop.Known t := known_plainMessage h (by simp) (by simp [item, plainMessage])
  have horder : (order nested).Known t :=
    known_plainMessage h (by simp)
      (by rcases hnested with rfl | rfl <;> simp [innerShop, plainMessage])
  refine ⟨?_, by simp [shopFile], by simp [shopFile]⟩
  rw [printedTop_shopFile, List.forall_mem_cons, List.forall_mem_cons]
  refine ⟨hitem, horder, ?_⟩
  rcases hnested with rfl | rfl
  · simp [printedNested]
  · simp [printedNested, innerShop, item, plainMessage, printedMessages]
    exact ⟨hinner, hitem⟩

end Shop

/-- The order's `shop.Item` is taken for that of the message inside it. -/
theorem render_captured :
    (shopFile [innerShop]).Known (table (symbols (shopFile [innerShop]) ++ [])) ∧
    .type ["shop", "Order"] (.named ".shop.Item") "shop.Item" ∈ pieces (shopFile [innerShop]) ∧
    denotes (table (symbols (shopFile [innerShop]) ++ [])) ["shop", "Order"] "shop.Item"
      = some (.named ["shop", "Order", "shop", "Item"]) ∧
    ¬ ∀ p ∈ pieces (shopFile [innerShop]),
      p.Keeps (table (symbols (shopFile [innerShop]) ++ [])) := by
  have hmem : .type ["shop", "Order"] (.named ".shop.Item") "shop.Item"
      ∈ pieces (shopFile [innerShop]) := by decide
  have hdenotes :
      denotes (table (symbols (shopFile [innerShop]) ++ [])) ["shop", "Order"] "shop.Item"
      = some (.named ["shop", "Order", "shop", "Item"]) := by decide
  refine ⟨known_shopFile (by decide) (.inr rfl), hmem, hdenotes, fun hall => ?_⟩
  obtain ⟨type, hmeans, htype⟩ := hall _ hmem
  rw [hdenotes] at htype
  cases htype
  revert hmeans
  decide

theorem clear_shopFile : (shopFile []).Clear (table (symbols (shopFile []) ++ [])) := by
  have hclear : shopField.spec.Clear (table (symbols (shopFile []) ++ [])) ["shop", "Order"] := by
    refine ⟨by decide, fun outer hne hp => ?_⟩
    have hcases : outer = ["shop"] ∨ outer = ["shop", "Order"] := by
      simpa [hne] using (List.mem_inits outer _).mpr hp
    rcases hcases with rfl | rfl <;> decide
  refine ⟨?_, by simp [shopFile], by simp [shopFile]⟩
  rw [printedTop_shopFile, List.forall_mem_cons, List.forall_mem_cons]
  refine ⟨⟨by simp [item, plainMessage], by simp [item, plainMessage]⟩, ⟨fun f hf => ?_, ?_⟩, ?_⟩
  · rw [List.mem_singleton.mp hf]
    exact fieldClear_nil.mpr hclear
  · simp [order, plainMessage]
  · simp [printedNested]

theorem render_keeps_types_shop :
    (shopFile []).Known (table (symbols (shopFile []) ++ [])) ∧
    ∀ p ∈ pieces (shopFile []), p.Keeps (table (symbols (shopFile []) ++ [])) := by
  have hknown : (shopFile []).Known (table (symbols (shopFile []) ++ [])) :=
    known_shopFile (by decide) (.inl rfl)
  exact ⟨hknown, (render_keeps_types (shopFile []) [] hknown).mpr clear_shopFile⟩

end SchemaRegistry.Proto
