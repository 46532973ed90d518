import SchemaRegistry.Lib.Table
import SchemaRegistry.Mutations.Plan

/-!
What a container holds, apart from how it is held: one table of rows, in which
version rows, bodies, reference edges, the content-hash index, counters and settings
are values under a key. A plan's writes act on it key by key; the snapshot and the
byte store below both implement it.
-/

namespace SchemaRegistry

open Lib

/-- The key of a row. -/
inductive RowKey where
  | version (ctx subject : String) (version : UInt32)
  | body (ctx : String) (id : UInt32)
  | refby (ctx subject : String) (version id : UInt32)
  | fingerprint (ctx fp : String)
  | nextId (ctx : String)
  | known (ctx : String)
  | config (scope : Scope)
  | mode (scope : Scope)
  | exporter (name : String)
  deriving DecidableEq

/-- What stands under a key. -/
@[reducible] def RowVal : RowKey → Type
  | .version .. => Option VersionRecord
  | .body .. => Option SchemaRecord
  | .refby .. => Bool
  | .fingerprint .. => Option UInt32
  | .nextId _ => Option UInt32
  | .known _ => Bool
  | .config _ => Option ConfigRecord
  | .mode _ => Option Mode
  | .exporter _ => Option ExporterRecord

abbrev Rows := (k : RowKey) → RowVal k

/-- The rows of a container that holds nothing. -/
def Rows.empty : Rows
  | .version .. => none
  | .body .. => none
  | .refby .. => false
  | .fingerprint .. => none
  | .nextId _ => none
  | .known _ => false
  | .config _ => none
  | .mode _ => none
  | .exporter _ => none

/-- What a write stores under a key. -/
def Write.touch : Write → (k : RowKey) → Option (RowVal k)
  | .putSchema ctx id rec _, .body ctx' id' =>
      if ctx = ctx' ∧ id = id' then some (some rec) else none
  | .putSchema ctx id rec index, .fingerprint ctx' fp =>
      if index ∧ ctx = ctx' ∧ rec.fingerprint = fp then some (some id) else none
  | .putVersion ctx subject version rec, .version ctx' subject' version' =>
      if ctx = ctx' ∧ subject = subject' ∧ version = version' then some (some rec) else none
  | .putVersion ctx _ _ _, .known ctx' => if ctx = ctx' then some true else none
  | .deleteVersion ctx subject version _, .version ctx' subject' version' =>
      if ctx = ctx' ∧ subject = subject' ∧ version = version' then some none else none
  | .deleteSchema ctx id, .body ctx' id' => if ctx = ctx' ∧ id = id' then some none else none
  | .putRefby ctx subject version id, .refby ctx' subject' version' id' =>
      if ctx = ctx' ∧ subject = subject' ∧ version = version' ∧ id = id' then some true else none
  | .deleteRefby ctx subject version id, .refby ctx' subject' version' id' =>
      if ctx = ctx' ∧ subject = subject' ∧ version = version' ∧ id = id' then some false else none
  | .setNextId ctx next, .nextId ctx' => if ctx = ctx' then some (some next) else none
  | .putConfig scope rec, .config scope' => if scope = scope' then some (some rec) else none
  | .deleteConfig scope, .config scope' => if scope = scope' then some none else none
  | .putMode scope mode, .mode scope' => if scope = scope' then some (some mode) else none
  | .deleteMode scope, .mode scope' => if scope = scope' then some none else none
  | .deleteContext ctx, .known ctx' => if ctx = ctx' then some false else none
  | .putExporter rec, .exporter name => if rec.info.name = name then some (some rec) else none
  | .deleteExporter name, .exporter name' => if name = name' then some none else none
  | _, _ => none

/-- The keys a write touches. -/
def Write.keys : Write → List RowKey
  | .putSchema ctx id rec index =>
      .body ctx id :: if index then [.fingerprint ctx rec.fingerprint] else []
  | .putVersion ctx subject version _ => [.version ctx subject version, .known ctx]
  | .deleteVersion ctx subject version _ => [.version ctx subject version]
  | .deleteSchema ctx id => [.body ctx id]
  | .putRefby ctx subject version id => [.refby ctx subject version id]
  | .deleteRefby ctx subject version id => [.refby ctx subject version id]
  | .setNextId ctx _ => [.nextId ctx]
  | .putConfig scope _ => [.config scope]
  | .deleteConfig scope => [.config scope]
  | .putMode scope _ => [.mode scope]
  | .deleteMode scope => [.mode scope]
  | .deleteContext ctx => [.known ctx]
  | .putExporter rec => [.exporter rec.info.name]
  | .deleteExporter name => [.exporter name]

theorem Write.touch_eq_none {w : Write} {k : RowKey} (h : k ∉ w.keys) : w.touch k = none := by
  cases w with
  | putSchema ctx id rec index => cases index <;> cases k <;> simp_all [keys, touch, eq_comm]
  | _ => cases k <;> simp_all [keys, touch, eq_comm]

theorem Write.touch_ne_none {w : Write} {k : RowKey} (h : k ∈ w.keys) : w.touch k ≠ none := by
  cases w with
  | putSchema ctx id rec index =>
    cases index <;> simp only [keys, List.mem_cons, Bool.false_eq_true, if_false, if_true,
      List.not_mem_nil, or_false] at h
    · subst h
      simp [touch]
    · rcases h with rfl | rfl <;> simp [touch]
  | putVersion ctx subject version rec =>
    rcases List.mem_pair.mp h with rfl | rfl <;> simp [touch]
  | _ =>
    obtain rfl := List.mem_singleton.mp h
    simp [touch]

/-- The rows after a plan's writes. -/
def Rows.after (ρ : Rows) (ws : List Write) : Rows := writeAll Write.touch ρ ws

end SchemaRegistry
