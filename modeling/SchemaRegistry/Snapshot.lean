import SchemaRegistry.Lib.SortedVec
import SchemaRegistry.Model

/-!
The in-memory read model. A `Snapshot` holds all registry metadata: every id,
subject/version, fingerprint, reference edge, config, mode and counter. Applying
an `Op` is the only way it changes; each `Op` mirrors one write of the store's
batch. Schema bodies are not in it.

Persistent ordered maps (`imbl::OrdMap`) and hash maps are both extensional tree
maps here; nothing below depends on the iteration order of a hash map.
-/

namespace SchemaRegistry

open Std SchemaRegistry.Lib

/-- A small sorted association vector (`Small<(K, V)>`). -/
abbrev Small (K V : Type) [Ord K] := SortedVec (K × V) Prod.fst

/-- A small sorted set (`Small<T>`). -/
abbrev SmallSet (T : Type) [Ord T] := SortedVec T id

/-- `v.iter().find(|(k, _)| k == key)`. -/
def Small.find? {K V : Type} [Ord K] [DecidableEq K] (v : Small K V) (key : K) : Option V :=
  (v.entries.find? fun p => p.1 = key).map Prod.snd

/-- A scope as a key of an ordered map. -/
def Scope.rank : Scope → Nat × String × String
  | .global => (0, "", "")
  | .context ctx => (1, ctx, "")
  | .subject ctx name => (2, ctx, name)

theorem Scope.rank_injective : Function.Injective Scope.rank := by
  intro s t h
  cases s <;> cases t <;> simp_all [Scope.rank]

instance : Ord Scope := ⟨compareOn Scope.rank⟩

instance : TransOrd Scope := inferInstanceAs (TransCmp (compareOn Scope.rank))

instance : LawfulEqOrd Scope where
  compare_self := (inferInstance : ReflCmp (compareOn Scope.rank)).compare_self
  eq_of_compare h := Scope.rank_injective (LawfulEqOrd.eq_of_compare h)

/-! ### Operations -/

/-- One mutation, mirrored 1:1 from the store's batch. -/
inductive Op where
  | putSchema (ctx : String) (id : UInt32) (rec : SchemaRecord) (index : Bool)
  | deleteSchema (ctx : String) (id : UInt32)
  | putVersion (ctx subject : String) (version : UInt32) (rec : VersionRecord)
  | deleteVersion (ctx subject : String) (version id : UInt32)
  | putRefby (ctx subject : String) (version id : UInt32)
  | deleteRefby (ctx subject : String) (version id : UInt32)
  | setNextId (ctx : String) (next : UInt32)
  | deleteContext (ctx : String)
  | putConfig (scope : Scope) (rec : ConfigRecord)
  | deleteConfig (scope : Scope)
  | putMode (scope : Scope) (mode : Mode)
  | deleteMode (scope : Scope)
  | setLogSeq (seq : UInt64)

structure CtxState where
  /-- subject -> version -> record (including soft-deleted versions) -/
  subjects : ExtTreeMap String (Small UInt32 VersionRecord) := ∅
  /-- id -> (subject, version) pairs using it -/
  usages : ExtTreeMap UInt32 (SmallSet (String × UInt32)) := ∅
  fingerprints : ExtTreeMap String UInt32 := ∅
  /-- (subject, version) -> ids of schemas referencing it -/
  refby : ExtTreeMap (String × UInt32) (SmallSet UInt32) := ∅
  nextId : Option UInt32 := none

instance : Inhabited CtxState := ⟨{}⟩

structure Snapshot where
  ctxs : ExtTreeMap String CtxState := ∅
  knownContexts : ExtTreeSet String := ∅
  config : ExtTreeMap Scope ConfigRecord := ∅
  /-- Whether any subject is an alias. -/
  hasAliases : Bool := false
  mode : ExtTreeMap Scope Mode := ∅
  logSeq : UInt64 := 0

/-- Whether a config names an alias. -/
def ConfigRecord.isAlias (c : ConfigRecord) : Bool :=
  match c.«alias» with
  | some a => !a.isEmpty
  | none => false

namespace CtxState

def version? (c : CtxState) (subject : String) (version : UInt32) : Option VersionRecord :=
  c.subjects[subject]?.bind fun vs => vs.find? version

/-- The usages when a version is about to be put under `id`: a pair listed under another
id is taken out there. -/
def usagesBeforePut (c : CtxState) (subject : String) (version id : UInt32) :
    ExtTreeMap UInt32 (SmallSet (String × UInt32)) :=
  match ((c.version? subject version).map (·.id)).filter (· != id) with
  | some old => c.usages.modify old (·.erase (subject, version))
  | none => c.usages

def putVersion (c : CtxState) (subject : String) (version : UInt32) (rec : VersionRecord) :
    CtxState :=
  { c with
    subjects := VecMap.insertAt c.subjects subject (version, rec)
    usages := VecMap.insertAt (c.usagesBeforePut subject version rec.id) rec.id
      (subject, version) }

/-- Entries that become empty are dropped from both maps. -/
def deleteVersion (c : CtxState) (subject : String) (version id : UInt32) : CtxState :=
  { c with
    subjects := VecMap.eraseAt c.subjects subject version
    usages := VecMap.eraseAt c.usages id (subject, version) }

def putRefby (c : CtxState) (subject : String) (version id : UInt32) : CtxState :=
  { c with refby := VecMap.insertAt c.refby (subject, version) id }

def deleteRefby (c : CtxState) (subject : String) (version id : UInt32) : CtxState :=
  { c with refby := VecMap.eraseAt c.refby (subject, version) id }

end CtxState

namespace Snapshot

/-- `ctx_mut`: an unknown context starts out empty. -/
def updateCtx (s : Snapshot) (ctx : String) (f : CtxState → CtxState) : Snapshot :=
  { s with ctxs := s.ctxs.insert ctx (f (s.ctxs[ctx]?.getD default)) }

def apply (s : Snapshot) : Op → Snapshot
  | .deleteSchema _ _ => s
  | .putSchema ctx id rec index =>
      if index then
        s.updateCtx ctx fun c => { c with fingerprints := c.fingerprints.insert rec.fingerprint id }
      else s
  | .putVersion ctx subject version rec =>
      { s with knownContexts := s.knownContexts.insert ctx }.updateCtx ctx
        fun c => c.putVersion subject version rec
  | .deleteVersion ctx subject version id =>
      s.updateCtx ctx fun c => c.deleteVersion subject version id
  | .putRefby ctx subject version id => s.updateCtx ctx fun c => c.putRefby subject version id
  | .deleteRefby ctx subject version id =>
      s.updateCtx ctx fun c => c.deleteRefby subject version id
  | .setNextId ctx next => s.updateCtx ctx fun c => { c with nextId := some next }
  | .deleteContext ctx => { s with knownContexts := s.knownContexts.erase ctx }
  | .putConfig scope rec =>
      { s with hasAliases := s.hasAliases || rec.isAlias, config := s.config.insert scope rec }
  | .deleteConfig scope =>
      let config := s.config.erase scope
      { s with
        config
        hasAliases := s.hasAliases && config.toList.any fun p => p.2.isAlias }
  | .putMode scope mode => { s with mode := s.mode.insert scope mode }
  | .deleteMode scope => { s with mode := s.mode.erase scope }
  | .setLogSeq seq => { s with logSeq := seq }

/-- The snapshot after a list of operations, oldest first. -/
def applyAll (s : Snapshot) (ops : List Op) : Snapshot := ops.foldl apply s

/-! ### Queries -/

def getVersion (s : Snapshot) (ctx subject : String) (version : UInt32) : Option VersionRecord :=
  s.ctxs[ctx]?.bind fun c => c.version? subject version

def listVersions (s : Snapshot) (ctx subject : String) : List (UInt32 × VersionRecord) :=
  match s.ctxs[ctx]?.bind fun c => c.subjects[subject]? with
  | some vs => vs.entries
  | none => []

def listSubjectNames (s : Snapshot) (ctx : String) : List String :=
  match s.ctxs[ctx]? with
  | some c => c.subjects.keys
  | none => []

def idUsages (s : Snapshot) (ctx : String) (id : UInt32) : List (String × UInt32) :=
  match s.ctxs[ctx]?.bind fun c => c.usages[id]? with
  | some u => u.entries
  | none => []

def referencedBy (s : Snapshot) (ctx subject : String) (version : UInt32) : List UInt32 :=
  match s.ctxs[ctx]?.bind fun c => c.refby[(subject, version)]? with
  | some ids => ids.entries
  | none => []

def idForFingerprint (s : Snapshot) (ctx fp : String) : Option UInt32 :=
  s.ctxs[ctx]?.bind fun c => c.fingerprints[fp]?

def nextId (s : Snapshot) (ctx : String) : UInt32 :=
  (s.ctxs[ctx]?.bind fun c => c.nextId).getD 1

/-- The known contexts in order, the default one among them whether known or not. -/
def listContexts (s : Snapshot) : List String := (s.knownContexts.insert defaultContext).toList

def getConfig (s : Snapshot) (scope : Scope) : Option ConfigRecord := s.config[scope]?

def getMode (s : Snapshot) (scope : Scope) : Option Mode := s.mode[scope]?

end Snapshot

end SchemaRegistry
