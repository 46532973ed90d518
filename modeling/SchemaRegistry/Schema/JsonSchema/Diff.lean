import SchemaRegistry.Lib.Fuel
import SchemaRegistry.Schema.Formats
import SchemaRegistry.Schema.JavaOrder
import Mathlib.Data.Rat.Floor

/-!
Compatibility of JSON schemas. A schema is a list of nodes that name each other by their places. The
writer's and the reader's nodes are walked together and every difference found is noted; a schema is
readable when none of them is incompatible. A stack of the writer's nodes under comparison keeps
recursive schemas from going round. The calls are bounded by a number that stands for the depth they
may reach.
-/

namespace SchemaRegistry.JsonSchema

open Lib

/-- What the JSON and regular expression libraries supply. -/
structure Host where
  /-- `Number::as_f64`, by the exact value of the double. -/
  asF64 : JsonNumber → ℚ
  /-- `Regex::new`: what the expression matches, or why it is refused. -/
  regex : String → Except String (String → Bool)

/-- `f as i64`: towards zero, and no further than the ends of the range. -/
def satI64 (q : ℚ) : Int :=
  max (-2 ^ 63) (min (2 ^ 63 - 1) (if 0 ≤ q then ⌊q⌋ else ⌈q⌉))

/-! ### Nodes -/

inductive Criterion where
  | all | any | one
  deriving DecidableEq, Repr

def Criterion.name : Criterion → String
  | .all => "allOf"
  | .any => "anyOf"
  | .one => "oneOf"

structure StrS where
  minLength : Option Int
  maxLength : Option Int
  pattern : Option String
  deriving DecidableEq, Repr

/-- A number schema; `N` stands for how its numbers are held. -/
structure NumS (N : Type) where
  minimum : Option N
  maximum : Option N
  exclusiveMinimum : Option N
  exclusiveMaximum : Option N
  multipleOf : Option N
  requiresInteger : Bool
  deriving DecidableEq, Repr

/-- `Loader::number`: only members that are numbers count, and in draft 4 the exclusive limits are
no numbers. -/
def number (draft4 : Bool) (o : JsonMap) (requiresInteger : Bool) : NumS JsonNumber :=
  let n (key : String) : Option JsonNumber :=
    match o.lookup key with
    | some (.number value) => some value
    | _ => none
  { minimum := n "minimum"
    maximum := n "maximum"
    exclusiveMinimum := if draft4 then none else n "exclusiveMinimum"
    exclusiveMaximum := if draft4 then none else n "exclusiveMaximum"
    multipleOf := n "multipleOf"
    requiresInteger }

structure ArrS where
  allItems : Option Nat
  itemSchemas : Option (List Nat)
  permitsAdditionalItems : Bool
  schemaOfAdditionalItems : Option Nat
  minItems : Option Int
  maxItems : Option Int
  uniqueItems : Bool
  deriving DecidableEq, Repr

structure ObjS where
  /-- In the order of a Java hash map. -/
  properties : List (String × Nat)
  required : List String
  permitsAdditional : Bool
  schemaOfAdditional : Option Nat
  patternProperties : List (String × Nat)
  propertyDependencies : List (String × List String)
  schemaDependencies : List (String × Nat)
  minProperties : Option Int
  maxProperties : Option Int
  deriving DecidableEq, Repr

inductive Kind where
  | true | false | empty | boolean | null
  | str (s : StrS)
  | num (s : NumS JsonNumber)
  | arr (s : ArrS)
  | obj (s : ObjS)
  | enum (values : List Json)
  | const (value : Json)
  | not (sub : Nat)
  | combined (crit : Criterion) (subs : List Nat) (raw : List Json)
  | ref (target : Nat)
  | conditional

namespace Kind

/-- The class of a node, for telling types apart. -/
def classId : Kind → Nat
  | .true => 0
  | .false => 1
  | .empty => 2
  | .boolean => 3
  | .null => 4
  | .str _ => 5
  | .num _ => 6
  | .arr _ => 7
  | .obj _ => 8
  | .enum _ => 9
  | .const _ => 10
  | .not _ => 11
  | .combined .. => 12
  | .ref _ => 13
  | .conditional => 14

/-- It accepts everything. -/
def acceptsAll : Kind → Bool
  | .empty | .true => Bool.true
  | _ => Bool.false

def isFalse : Kind → Bool
  | .false => Bool.true
  | _ => Bool.false

end Kind

structure SNode where
  kind : Kind
  id : Option String
  title : Option String
  description : Option String
  default : Option Json

def SNode.bare (kind : Kind) : SNode := ⟨kind, none, none, none, none⟩

structure Model where
  nodes : List SNode
  root : Nat

namespace Model

variable (m : Model)

def node (i : Nat) : SNode := m.nodes.getD i (.bare .empty)

/-- One reference is followed. -/
def deref (i : Nat) : Nat :=
  match (m.node i).kind with
  | .ref t => t
  | _ => i

end Model

/-! ### Differences -/

/-- The limits a schema can set. -/
inductive Limit where
  | maximum | minimum | exclusiveMaximum | exclusiveMinimum | maxLength | minLength
  | maxProperties | minProperties | maxItems | minItems
  deriving DecidableEq, Repr

namespace Limit

def key : Limit → String
  | maximum => "maximum"
  | minimum => "minimum"
  | exclusiveMaximum => "exclusiveMaximum"
  | exclusiveMinimum => "exclusiveMinimum"
  | maxLength => "maxLength"
  | minLength => "minLength"
  | maxProperties => "maxProperties"
  | minProperties => "minProperties"
  | maxItems => "maxItems"
  | minItems => "minItems"

/-- Values may go up to it. -/
def isUpper : Limit → Bool
  | maximum | exclusiveMaximum | maxLength | maxProperties | maxItems => true
  | minimum | exclusiveMinimum | minLength | minProperties | minItems => false

end Limit

inductive LimitChange where
  | added | removed | increased | decreased
  deriving DecidableEq, Repr

/-- What an object or an array has: properties or items. -/
inductive Part where
  | property | item
  deriving DecidableEq, Repr

inductive DiffKind where
  | schemaAdded | schemaRemoved
  | idChanged | titleChanged | descriptionChanged | defaultChanged
  | typeChanged | typeExtended | typeNarrowed
  | limit (l : Limit) (c : LimitChange)
  | patternAdded | patternRemoved | patternChanged
  | multipleOfAdded | multipleOfRemoved | multipleOfExpanded | multipleOfReduced | multipleOfChanged
  | enumArrayExtended | enumArrayNarrowed | enumArrayChanged
  | combinedTypeExtended | combinedTypeChanged | combinedTypeSubschemasChanged
  | productTypeExtended | productTypeNarrowed | sumTypeExtended | sumTypeNarrowed
  | notTypeNarrowed | notTypeExtended
  | requiredAttributeRemoved | requiredAttributeWithDefaultAdded | requiredAttributeAdded
  | removedFromOpen (p : Part) | removedIsCovered (p : Part) | removedNotCovered (p : Part)
  | falseRemovedFromClosed (p : Part) | removedFromClosed (p : Part)
  | emptyAddedToOpen (p : Part) | addedToOpen (p : Part)
  | addedIsCovered (p : Part) | addedNotCovered (p : Part)
  | itemAddedToClosed
  | requiredWithDefaultAddedToUnopen | requiredAddedToUnopen | optionalAddedToUnopen
  | dependencyArrayAdded | dependencyArrayRemoved | dependencyArrayExtended
  | dependencyArrayNarrowed | dependencyArrayChanged
  | dependencySchemaAdded | dependencySchemaRemoved
  | additionalAdded (p : Part) | additionalRemoved (p : Part)
  | additionalNarrowed (p : Part) | additionalExtended (p : Part)
  | uniqueItemsAdded | uniqueItemsRemoved
  deriving DecidableEq, Repr

namespace DiffKind

/-- `COMPATIBLE`. -/
def compatible : DiffKind → Bool
  | idChanged | descriptionChanged | titleChanged | defaultChanged | schemaRemoved | typeExtended =>
    true
  | limit l .increased => l.isUpper
  | limit l .decreased => !l.isUpper
  | limit _ .removed => true
  | patternRemoved | multipleOfReduced | multipleOfRemoved => true
  | requiredAttributeWithDefaultAdded | requiredAttributeRemoved => true
  | dependencyArrayNarrowed | dependencyArrayRemoved | dependencySchemaRemoved => true
  | additionalAdded _ | additionalExtended _ => true
  | emptyAddedToOpen _ | requiredWithDefaultAddedToUnopen | optionalAddedToUnopen => true
  | falseRemovedFromClosed _ | removedFromOpen _ | addedIsCovered _ | removedIsCovered _ => true
  | itemAddedToClosed | uniqueItemsRemoved => true
  | enumArrayExtended | combinedTypeExtended | productTypeNarrowed | sumTypeExtended
  | notTypeNarrowed => true
  | _ => false

end DiffKind

structure Diff where
  kind : DiffKind
  path : String
  deriving DecidableEq, Repr

namespace Diff

/-- A difference at a path. -/
def add (path : List String) (kind : DiffKind) : Diff := ⟨kind, "#/" ++ "/".intercalate path⟩

def incompatible (d : Diff) : Bool := !d.kind.compatible

end Diff

/-- Nothing incompatible was found. -/
def compatible (diffs : List Diff) : Bool := !diffs.any Diff.incompatible

/-! ### Strings and numbers -/

section Values

variable (path : List String)

/-- A limit on the two sides; limits held as numbers of one kind are compared by them. -/
def compareBound {T : Type} [DecidableEq T] [LT T] [DecidableLT T] (l : Limit) (o u : Option T) :
    List Diff :=
  if o = u then []
  else
    match o, u with
    | none, some _ => [.add (path ++ [l.key]) (.limit l .added)]
    | some _, none => [.add (path ++ [l.key]) (.limit l .removed)]
    | some a, some b =>
        if a < b then [.add (path ++ [l.key]) (.limit l .increased)]
        else if b < a then [.add (path ++ [l.key]) (.limit l .decreased)]
        else []
    | none, none => []

def compareString (o u : StrS) : List Diff :=
  compareBound path .maxLength o.maxLength u.maxLength
    ++ compareBound path .minLength o.minLength u.minLength
    ++ match o.pattern, u.pattern with
      | none, some _ => [.add (path ++ ["pattern"]) .patternAdded]
      | some _, none => [.add (path ++ ["pattern"]) .patternRemoved]
      | some a, some b => if a ≠ b then [.add (path ++ ["pattern"]) .patternChanged] else []
      | none, none => []

variable (host : Host)

/-- A limit of a number: equal numbers are not compared further, others by their doubles. -/
def compareNumberBound (l : Limit) (a b : Option JsonNumber) : List Diff :=
  if a = b then [] else compareBound path l (a.map host.asF64) (b.map host.asF64)

/-- Divisibility is tested on what is before the point. -/
def multipleOfChange (a b : ℚ) : DiffKind :=
  let ai := satI64 a
  let bi := satI64 b
  if ai ≠ 0 ∧ bi.tmod ai = 0 then .multipleOfExpanded
  else if bi ≠ 0 ∧ ai.tmod bi = 0 then .multipleOfReduced
  else .multipleOfChanged

def compareMultipleOf (a b : Option JsonNumber) : List Diff :=
  if a.map host.asF64 = b.map host.asF64 then []
  else
    match a.map host.asF64, b.map host.asF64 with
    | none, _ => [.add (path ++ ["multipleOf"]) .multipleOfAdded]
    | _, none => [.add (path ++ ["multipleOf"]) .multipleOfRemoved]
    | some a, some b => [.add (path ++ ["multipleOf"]) (multipleOfChange a b)]

def compareNumber (o u : NumS JsonNumber) : List Diff :=
  compareNumberBound path host .maximum o.maximum u.maximum
    ++ compareNumberBound path host .minimum o.minimum u.minimum
    ++ compareNumberBound path host .exclusiveMaximum o.exclusiveMaximum u.exclusiveMaximum
    ++ compareNumberBound path host .exclusiveMinimum o.exclusiveMinimum u.exclusiveMinimum
    ++ compareMultipleOf path host o.multipleOf u.multipleOf
    ++ if o.requiresInteger ≠ u.requiresInteger then
        [.add path (if o.requiresInteger then .typeExtended else .typeNarrowed)]
      else []

/-- `x` has all elements of `y`. -/
def containsAll (x y : List Json) : Bool := y.all fun v => x.any fun w => w.eqv v

def compareEnum (o u : List Json) : List Diff :=
  if containsAll o u ∧ containsAll u o then []
  else if containsAll u o then [.add (path ++ ["enum"]) .enumArrayExtended]
  else if containsAll o u then [.add (path ++ ["enum"]) .enumArrayNarrowed]
  else [.add (path ++ ["enum"]) .enumArrayChanged]

def compareConst (o u : Json) : List Diff :=
  if o.eqv u then [] else [.add (path ++ ["const"]) .enumArrayChanged]

/-- What is said about a schema beside its type. -/
def compareAnnotations (o u : SNode) : List Diff :=
  (if o.id ≠ u.id then [.add path .idChanged] else [])
    ++ (if o.title ≠ u.title then [.add path .titleChanged] else [])
    ++ (if o.description ≠ u.description then [.add path .descriptionChanged] else [])
    ++ if Json.eqvOpt o.default u.default then [] else [.add path .defaultChanged]

end Values

/-! ### Matching subschemas -/

/-- Find a place for `l`, giving others a new place if need be. Every call marks a place that was
not marked, so `fuel` is enough when it exceeds their number. -/
def augment (edges : List (List Nat)) : Nat → Nat → List Nat × List (Nat × Nat) →
    Bool × List Nat × List (Nat × Nat)
  | 0, _, st => (false, st)
  | fuel + 1, l, st =>
      (edges.getD l []).foldl (fun (done, seen, owner) r =>
        if done then (true, seen, owner)
        else if seen.contains r then (false, seen, owner)
        else
          let seen := r :: seen
          match owner.lookup r with
          | none => (true, seen, (r, l) :: owner)
          | some o =>
              let (moved, seen, owner) := augment edges fuel o (seen, owner)
              if moved then (true, seen, (r, l) :: owner) else (false, seen, owner))
        (false, st)

/-- Size of a maximum bipartite matching. -/
def maxMatching (edges : List (List Nat)) (right : Nat) : Nat :=
  ((List.range edges.length).foldl (fun (count, owner) l =>
    let (placed, _, owner) := augment edges (right + 1) l ([], owner)
    (if placed then count + 1 else count, owner)) (0, ([] : List (Nat × Nat)))).1

/-! ### Comparing -/

/-- Compare two schemas of two models, given the stack and the path. -/
abbrev Compare :=
  Model → Model → List Nat → List String → Option Nat → Option Nat → Option (List Diff)

section Levels

variable (host : Host) (rec : Compare) (om um : Model) (stack : List Nat) (path : List String)

/-- The first candidate that a schema is compatible with. -/
def firstCompatible (f : Nat → Option (List Diff)) : List Nat → Option (Option (List Diff))
  | [] => some none
  | s :: rest => do
      let diffs ← f s
      if compatible diffs then some (some diffs) else firstCompatible f rest

/-- One of the two schemas combines others: it may do for the other one by itself. -/
def compareAcross (o u : Nat) : Option (Option (List Diff)) :=
  match (om.node o).kind, (um.node u).kind with
  | .combined .., .combined .. => some none
  | _, .combined crit subs _ =>
      match subs with
      | [s] => firstCompatible (fun s => rec om um stack path (some o) (some s)) [s]
      | _ =>
          if crit = .any ∨ crit = .one then do
            let found ← firstCompatible (fun s => rec om um stack path (some o) (some s)) subs
            some (found.map (· ++ [.add path .sumTypeExtended]))
          else some none
  | .combined crit subs _, _ =>
      match subs with
      | [s] => firstCompatible (fun s => rec om um stack path (some s) (some u)) [s]
      | _ =>
          if crit = .all then do
            let found ← firstCompatible (fun s => rec om um stack path (some s) (some u)) subs
            some (found.map (· ++ [.add path .productTypeNarrowed]))
          else some none
  | _, _ => some none

/-- Equal subschemas count once. -/
def dedup (subs : List Nat) (raw : List Json) : List Nat :=
  (subs.zipIdx.foldl (fun (seen, out) (s, i) =>
    match raw[i]? with
    | some v => if seen.any fun w => w.eqv v then (seen, out) else (seen ++ [v], out ++ [s])
    | none => (seen, out ++ [s])) (([] : List Json), ([] : List Nat))).2

def criterionExtended (oc uc : Criterion) (os us : List Nat) : Bool :=
  uc = .any || (os.length = 1 && us.length = 1) || (os.length = 1 && uc = .one)
    || (us.length = 1 && oc = .all)

/-- The readers' subschemas a writer's one is compatible with. -/
def matching (oc : Criterion) (us : List Nat) (oi : Nat × Nat) : Option (List Nat) := do
  let verdicts ← us.zipIdx.mapM fun (u, j) => do
    let diffs ← rec om um stack (path ++ [oc.name ++ "/" ++ toString oi.2]) (some oi.1) (some u)
    some (if compatible diffs then [j] else [])
  some verdicts.flatten

def compareCombined (oc uc : Criterion) (os us : List Nat) (oraw uraw : List Json) :
    Option (List Diff) :=
  if oc ≠ uc ∧ !criterionExtended oc uc os us then some [.add path .combinedTypeChanged]
  else do
    let os' := dedup os oraw
    let us' := dedup us uraw
    let edges ← os'.zipIdx.mapM (matching rec om um stack path oc us')
    some ((if oc ≠ uc then [.add path .combinedTypeExtended] else [])
      ++ (if os'.length < us'.length then
          [.add path (if uc = .all then .productTypeExtended else .sumTypeExtended)]
        else if us'.length < os'.length then
          [.add path (if oc = .all then .productTypeNarrowed else .sumTypeNarrowed)]
        else [])
      ++ if maxMatching edges us'.length < min os'.length us'.length then
          [.add path .combinedTypeSubschemasChanged]
        else [])

/-- `not` turns the two sides round. -/
def compareNot (o u : Nat) : Option (List Diff) := do
  let diffs ← rec um om [] (path ++ ["not"]) (some u) (some o)
  some [.add (path ++ ["not"]) (if compatible diffs then .notTypeNarrowed else .notTypeExtended)]

def isOpenObject (s : ObjS) : Bool :=
  s.patternProperties.isEmpty && s.schemaOfAdditional.isNone && s.permitsAdditional

/-- The schema of properties that are not listed. -/
def partialSchema (s : ObjS) (key : String) : Option Nat :=
  match s.patternProperties.find? fun p =>
      match host.regex p.1 with
      | .ok isMatch => isMatch key
      | .error _ => false with
  | some p => some p.2
  | none => s.schemaOfAdditional

def hasDefault (i : Nat) : Bool :=
  (um.node (um.deref i)).default.isSome || (um.node i).default.isSome

def compareRequired (o u : ObjS) : List Diff :=
  o.properties.flatMap fun p =>
    let path := path ++ ["required", p.1]
    match u.properties.lookup p.1 with
    | none => []
    | some i =>
        if o.required.contains p.1 && !u.required.contains
          p.1 then [.add path .requiredAttributeRemoved]
        else if !o.required.contains p.1 && u.required.contains p.1 then
          [.add path (if hasDefault um i then .requiredAttributeWithDefaultAdded
            else .requiredAttributeAdded)]
        else []

/-- A schema that something not listed has to match on the other side. -/
def compareCovered (yes no : DiffKind) (o u : Nat) : Option (List Diff) := do
  let diffs ← rec om um stack path (some o) (some u)
  some (diffs ++ [.add path (if compatible diffs then yes else no)])

/-- A property or item that the reader does not list. -/
def compareRemoved (p : Part) (isOpen : Bool) (covering : Option Nat) (o : Nat) :
    Option (List Diff) :=
  if isOpen then some [.add path (.removedFromOpen p)]
  else
    match covering with
    | some s => compareCovered rec om um stack path (.removedIsCovered p) (.removedNotCovered p) o s
    | none =>
        some [.add path (if (om.node (om.deref o)).kind.isFalse then .falseRemovedFromClosed p
          else .removedFromClosed p)]

def compareAddedToOpen (p : Part) (u : Nat) : List Diff :=
  [.add path
    (if (um.node (um.deref u)).kind.acceptsAll then .emptyAddedToOpen p else .addedToOpen p)]

/-- A property that the writer does not list. -/
def compareAddedProperty (o u : ObjS) (key : String) (s : Nat) : Option (List Diff) :=
  if isOpenObject o then some (compareAddedToOpen um path .property s)
  else do
    let covered ← match partialSchema host o key with
      | some covering =>
          compareCovered rec om um stack path (.addedIsCovered .property)
            (.addedNotCovered .property)
            covering s
      | none => some []
    some (covered ++ [.add path (if u.required.contains key then
        if hasDefault um s then .requiredWithDefaultAddedToUnopen else .requiredAddedToUnopen
      else .optionalAddedToUnopen)])

def compareProperties (o u : ObjS) : Option (List Diff) :=
  collect (((JavaSet.fromCollection (o.properties.map (·.1))).extend
      (u.properties.map (·.1))).ordered javaHash) fun key =>
    let path := path ++ ["properties", key]
    match o.properties.lookup key, u.properties.lookup key with
    | some s, none =>
        compareRemoved rec om um stack path .property (isOpenObject u) (partialSchema host u key) s
    | none, some s => compareAddedProperty host rec om um stack path o u key s
    | some os, some us => rec om um stack path (some os) (some us)
    | none, none => some []

def compareDependencyArrays (o u : ObjS) : List Diff :=
  (unionOrder javaHash (o.propertyDependencies.map (·.1))
    (u.propertyDependencies.map (·.1))).flatMap
    fun key =>
      let path := path ++ ["dependencies", key]
      let has (x y : List String) : Bool := y.all x.contains
      match o.propertyDependencies.lookup key, u.propertyDependencies.lookup key with
      | some _, none => [.add path .dependencyArrayRemoved]
      | none, some _ => [.add path .dependencyArrayAdded]
      | some a, some b =>
          if has a b ∧ has b a then []
          else if has b a then [.add path .dependencyArrayExtended]
          else if has a b then [.add path .dependencyArrayNarrowed]
          else [.add path .dependencyArrayChanged]
      | none, none => []

def compareDependencySchemas (o u : ObjS) : Option (List Diff) :=
  collect (unionOrder javaHash (o.schemaDependencies.map (·.1)) (u.schemaDependencies.map (·.1)))
    fun key =>
      let path := path ++ ["dependencies", key]
      match o.schemaDependencies.lookup key, u.schemaDependencies.lookup key with
      | some _, none => some [.add path .dependencySchemaRemoved]
      | none, some _ => some [.add path .dependencySchemaAdded]
      | some a, some b => rec om um stack path (some a) (some b)
      | none, none => some []

/-- `additionalProperties` and `additionalItems`. -/
def compareAdditional (p : Part) (op up : Bool) (o u : Option Nat) : Option (List Diff) :=
  let path := path ++ [match p with
    | .property => "additionalProperties"
    | .item => "additionalItems"]
  if op ≠ up then some [.add path (if up then .additionalAdded p else .additionalRemoved p)]
  else
    match o, u with
    | none, some _ => some [.add path (.additionalNarrowed p)]
    | some _, none => some [.add path (.additionalExtended p)]
    | o, u => rec om um stack path o u

def compareObject (o u : ObjS) : Option (List Diff) := do
  let properties ← compareProperties host rec om um stack path o u
  let dependencies ← compareDependencySchemas rec om um stack path o u
  let additional ← compareAdditional rec om um stack path .property o.permitsAdditional
    u.permitsAdditional o.schemaOfAdditional u.schemaOfAdditional
  some (compareRequired um path o u ++ properties ++ compareDependencyArrays path o u
    ++ dependencies
    ++ additional
    ++ compareBound path .maxProperties o.maxProperties u.maxProperties
    ++ compareBound path .minProperties o.minProperties u.minProperties)

def isOpenArray (s : ArrS) : Bool := s.schemaOfAdditionalItems.isNone && s.permitsAdditionalItems

/-- An item that the writer does not list. -/
def compareAddedItem (o : ArrS) (s : Nat) : Option (List Diff) :=
  if isOpenArray o then some (compareAddedToOpen um path .item s)
  else
    match o.schemaOfAdditionalItems with
    | some covering =>
        compareCovered rec om um stack path (.addedIsCovered .item)
          (.addedNotCovered .item) covering s
    | none => some [.add path .itemAddedToClosed]

/-- Items by place: those both have, then those only one has. -/
def compareItems (o u : ArrS) : Option (List Diff) := do
  let oi := o.itemSchemas.getD []
  let ui := u.itemSchemas.getD []
  let common := min oi.length ui.length
  let itemPath (i : Nat) : List String := path ++ ["items/" ++ toString i]
  let both ← collect ((oi.zip ui).zipIdx) fun ((a, b), i) => rec om um stack (itemPath i)
      (some a) (some b)
  let removed ← collect (oi.zipIdx.drop common) fun (s, i) =>
    compareRemoved rec om um stack (itemPath i) .item (isOpenArray u) u.schemaOfAdditionalItems s
  let added ← collect (ui.zipIdx.drop common) fun (s, i) =>
    compareAddedItem rec om um stack (itemPath i) o s
  some (both ++ removed ++ added)

def compareArray (o u : ArrS) : Option (List Diff) := do
  let all ← rec om um stack (path ++ ["items"]) o.allItems u.allItems
  let items ← compareItems rec om um stack path o u
  let additional ← compareAdditional rec om um stack path .item o.permitsAdditionalItems
    u.permitsAdditionalItems o.schemaOfAdditionalItems u.schemaOfAdditionalItems
  some (all ++ items ++ additional
    ++ compareBound path .maxItems o.maxItems u.maxItems
    ++ compareBound path .minItems o.minItems u.minItems
    ++ if o.uniqueItems ≠ u.uniqueItems then
        [.add (path ++ ["uniqueItems"])
          (if o.uniqueItems then .uniqueItemsRemoved else .uniqueItemsAdded)]
      else [])

/-- What two nodes of one class say, by kind. -/
def compareKinds (o u : Kind) : Option (List Diff) :=
  match o, u with
  | .str a, .str b => some (compareString path a b)
  | .num a, .num b => some (compareNumber path host a b)
  | .const a, .const b => some (compareConst path a b)
  | .enum a, .enum b => some (compareEnum path a b)
  | .combined oc os oraw, .combined uc us uraw =>
      compareCombined rec om um stack path oc uc os us oraw uraw
  | .not a, .not b => compareNot rec om um path a b
  | .obj a, .obj b => compareObject host rec om um stack path a b
  | .arr a, .arr b => compareArray rec om um stack path a b
  | _, _ => some []

/-- Two schemas that are there, references followed. -/
def compareNodes (o u : Nat) : Option (List Diff) := do
  match ← compareAcross rec om um stack path o u with
  | some diffs => some diffs
  | none =>
      if (om.node o).kind.classId ≠ (um.node u).kind.classId then
        some (if (om.node o).kind.isFalse || (um.node u).kind.acceptsAll then []
          else [.add path .typeChanged])
      else if stack.contains o then some []
      else do
        let kinds ← compareKinds host rec om um (stack ++ [o]) path (om.node o).kind
            (um.node u).kind
        some (compareAnnotations path (om.node o) (um.node u) ++ kinds)

end Levels

/-- `compare`. -/
def compare (host : Host) : Nat → Compare
  | 0, _, _, _, _, _, _ => none
  | fuel + 1, om, um, stack, path, o, u =>
      match o, u with
      | none, none => some []
      | none, some _ => some [.add path .schemaAdded]
      | some _, none => some [.add path .schemaRemoved]
      | some o, some u =>
        compareNodes host (compare host fuel) om um stack path (om.deref o) (um.deref u)

end SchemaRegistry.JsonSchema
