import SchemaRegistry.Mutations.Plan

/-!
Deleting a subject or one of its versions. Both go in two steps: a soft delete
hides live versions, and drops the subject's own config and mode with the last of
them; a permanent delete then removes the rows. Skipping the soft delete is
refused, and so is deleting a version something still references.
-/

namespace SchemaRegistry

/-- The row of a version that is being hidden. -/
def softDeleteWrite (q : QualifiedSubject) (v : UInt32) (vr : VersionRecord) : Write :=
  .putVersion q.context q.subject v { vr with deleted := true }

def softDeleteEvent (q : QualifiedSubject) (v : UInt32) (vr : VersionRecord) : LogEvent :=
  ⟨q.context, q.subject, v, vr.id, .softDelete⟩

/-- A subject with no live version has no settings either. -/
def dropSettings (q : QualifiedSubject) : List Write :=
  [.deleteMode (.subject q.context q.subject), .deleteConfig (.subject q.context q.subject)]

/-! ### `DELETE /subjects/{subject}` -/

structure DeleteSubject where
  subject : QualifiedSubject
  permanent : Bool

namespace DeleteSubject

def new (subject : String) (permanent : Bool) : DeleteSubject :=
  ⟨QualifiedSubject.parse subject, permanent⟩

def plan (m : DeleteSubject) (view : ReadView) : ApiResult (Plan (List UInt32)) := do
  let r := view.reader
  let q := m.subject
  if !hasSubjects r q true then .error (.subjectNotFound q.qualified)
  if !m.permanent && !hasSubjects r q false then .error (.subjectSoftDeleted q.qualified)
  let versions := (r.listVersions q.context q.subject).filter fun p => m.permanent || !p.2.deleted
  versions.forM fun (v, vr) => do
    checkNotReferenced r q v
    if m.permanent && !vr.deleted then .error (.subjectNotSoftDeleted q.qualified)
  let output := versions.map Prod.fst
  if m.permanent then
    -- Every version goes at once, so none of them counts as a user of an id that
    -- another of them still holds.
    let all := versions.map fun p => (q.subject, p.1)
    let gone := hardDeleteAll r (versions.map fun p => (q, p.1, p.2)) all
    .ok { writes := gone.1, events := gone.2, output }
  else
    .ok
      { writes := versions.map (fun p => softDeleteWrite q p.1 p.2) ++ dropSettings q
        events := versions.map fun p => softDeleteEvent q p.1 p.2
        output }

/-- A subject that is not there is 404 whatever mode it is in. -/
def mutation (m : DeleteSubject) : Mutation (List UInt32) where
  target := .subject m.subject
  intent := .modify
  gate := .afterPlan
  plan := m.plan

end DeleteSubject

/-! ### `DELETE /subjects/{subject}/versions/{version}` -/

structure DeleteSubjectVersion where
  subject : QualifiedSubject
  spec : VersionSpec
  permanent : Bool

namespace DeleteSubjectVersion

def new (subject : String) (spec : VersionSpec) (permanent : Bool) : DeleteSubjectVersion :=
  ⟨QualifiedSubject.parse subject, spec, permanent⟩

/-- The row the request names, with the refusals that come before any check. -/
def find (m : DeleteSubjectVersion) (r : Reader) : ApiResult (UInt32 × VersionRecord) :=
  let q := m.subject
  match getExact r q m.spec true with
  | some (version, vr) =>
      if !m.permanent && (getExact r q m.spec false).isNone then
        .error (.versionSoftDeleted q.qualified version)
      else .ok (version, vr)
  | none =>
      .error (if hasSubjects r q true then .versionNotFound m.spec.display
        else .subjectNotFound q.qualified)

def plan (m : DeleteSubjectVersion) (view : ReadView) : ApiResult (Plan UInt32) := do
  let r := view.reader
  let q := m.subject
  let (version, vr) ← m.find r
  checkNotReferenced r q version
  if m.permanent && !vr.deleted then .error (.versionNotSoftDeleted q.qualified version)
  if m.permanent then
    let gone := hardDeleteWrites r q version vr []
    .ok { writes := gone.1, events := [gone.2], output := version }
  else
    let liveLeft := (r.listVersions q.context q.subject).any fun p =>
      p.1 != version && !p.2.deleted
    .ok
      { writes := softDeleteWrite q version vr :: (if liveLeft then [] else dropSettings q)
        events := [softDeleteEvent q version vr]
        output := version }

/-- A version that is not there is 404 whatever mode it is in. -/
def mutation (m : DeleteSubjectVersion) : Mutation UInt32 where
  target := .subject m.subject
  intent := .modify
  gate := .afterPlan
  plan := m.plan

end DeleteSubjectVersion

end SchemaRegistry
