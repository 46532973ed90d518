import SchemaRegistry.ReadOnly
import Mathlib.Logic.Function.Basic

/-!
The configurations and modes of a container, and what single calls do to them. A forced change of
mode writes the scope its request names; a registration writes no setting.
-/

namespace SchemaRegistry

open Lib

variable {srv : Server} {reg reg' : Registry} {now : Int} {guid : String}

/-- What is configured at each scope. -/
@[ext]
structure Settings where
  config : Scope → Option ConfigRecord
  mode : Scope → Option Mode

namespace Settings

/-- Nothing is configured anywhere. -/
def empty : Settings := ⟨fun _ => none, fun _ => none⟩

def setMode (σ : Settings) (scope : Scope) (m : Option Mode) : Settings :=
  { σ with mode := Function.update σ.mode scope m }

@[simp] theorem config_setMode (σ : Settings) (scope : Scope) (m : Option Mode) :
    (σ.setMode scope m).config = σ.config := rfl

@[simp] theorem mode_setMode_self (σ : Settings) (scope : Scope) (m : Option Mode) :
    (σ.setMode scope m).mode scope = m := Function.update_self ..

theorem mode_setMode_of_ne {σ : Settings} {scope scope' : Scope} (h : scope' ≠ scope)
    (m : Option Mode) : (σ.setMode scope m).mode scope' = σ.mode scope' :=
  Function.update_of_ne h ..

end Settings

namespace Registry

def settings (reg : Registry) : Settings where
  config scope := reg.rows (.config scope)
  mode scope := reg.rows (.mode scope)

theorem getConfig_reader (reg : Registry) (scope : Scope) :
    reg.reader.getConfig scope = reg.settings.config scope := rfl

theorem getMode_reader (reg : Registry) (scope : Scope) :
    reg.reader.getMode scope = reg.settings.mode scope := rfl

theorem settings_empty (tenant : TenantId) : (Registry.empty tenant).settings = Settings.empty := by
  simp only [settings, rows_empty, Rows.empty, Settings.empty]

end Registry

theorem scopeFor_of_ne {q : QualifiedSubject} (h : q.subject ≠ "") :
    scopeFor q = .subject q.context q.subject := by
  rw [scopeFor, if_neg]
  simpa [QualifiedSubject.isContextOnly] using h

/-! ### Writes and settings -/

/-- A write of anything but a config or a mode. -/
def Write.SparesSettings (w : Write) : Prop :=
  ∀ scope, RowKey.config scope ∉ w.keys ∧ RowKey.mode scope ∉ w.keys

theorem settings_of_spares {ws : List Write} (hrows : reg'.rows = reg.rows.after ws)
    (h : ∀ w ∈ ws, w.SparesSettings) : reg'.settings = reg.settings := by
  ext1
  · funext scope
    change reg'.rows (.config scope) = reg.rows (.config scope)
    rw [hrows]
    exact writeAll_of_untouched fun w hw => Write.touch_eq_none (h w hw scope).1
  · funext scope
    change reg'.rows (.mode scope) = reg.rows (.mode scope)
    rw [hrows]
    exact writeAll_of_untouched fun w hw => Write.touch_eq_none (h w hw scope).2

theorem ite_eq_update {α β : Type} [DecidableEq α] (f : α → β) (a : α) (b : β) :
    (fun x => if a = x then b else f x) = Function.update f a b := by
  funext x
  by_cases h : a = x
  · subst h
    simp
  · rw [if_neg h, Function.update_of_ne (Ne.symm h)]

section Single

variable {α : Type} {scope : Scope} {out : α}

theorem settings_apply_single (w : Write) :
    (reg.apply { writes := [w], output := out : Plan α }).settings
      = ⟨fun scope => (w.touch (.config scope)).getD (reg.settings.config scope),
          fun scope => (w.touch (.mode scope)).getD (reg.settings.mode scope)⟩ := by
  simp only [Registry.settings, Registry.rows_apply]
  rfl

theorem settings_apply_putMode (m : Mode) :
    (reg.apply { writes := [.putMode scope m], output := out : Plan α }).settings
      = reg.settings.setMode scope (some m) := by
  rw [settings_apply_single, Settings.setMode, ← ite_eq_update]
  simp only [Write.touch, getD_ite_some_none, Option.getD_none]

end Single

/-! ### Calls -/

/-- The scope a request names. -/
def scopeNamed (subject : Option String) : Scope := scopeOf (subject.map QualifiedSubject.parse)

/-- A call without a fast answer applies the plan that passes the gate. -/
theorem run_of_mutation {verb : Verb} {m : Mutation verb.Output} (hm : verb.mutation srv = .ok m)
    (hfast : m.fastPath (reg.view now guid) = .ok none) :
    verb.run srv reg now guid
      = m.gatedPlan (reg.view now guid) >>= fun plan => .ok (plan.output, reg.apply plan) := by
  rw [Verb.run, Verb.decide, hm, ok_bind, Mutation.decide, hfast]
  rfl

theorem plan_setMode_force (subject : Option String) (mode : Mode) :
    (SetMode.new subject mode true).plan (reg.view now guid)
      = .ok { writes := [.putMode (scopeNamed subject) mode], output := () } := by
  have hpurges : (SetMode.new subject mode true).purges reg.reader = false := by
    simp [SetMode.purges, SetMode.new]
  rw [SetMode.plan, Registry.view_reader, if_neg (by simp [hpurges])]
  rfl

theorem run_setMode_force (subject : Option String) (mode : Mode) :
    (Verb.setMode subject mode true).run srv reg now guid
      = .ok ((), reg.apply { writes := [.putMode (scopeNamed subject) mode], output := () }) := by
  rw [run_of_mutation rfl rfl]
  exact (congrArg (fun x => x >>= fun plan => Except.ok (plan.output, reg.apply plan))
    (plan_setMode_force subject mode))

/-- Where the mode allows a call, its plan is all that counts. -/
theorem gatedPlan_of_gate {α : Type} {m : Mutation α} {view : ReadView}
    (h : modegateCheck m.intent (modeFor view.reader m.target) m.target.scopeName = .ok ()) :
    m.gatedPlan view = m.plan view := by
  unfold Mutation.gatedPlan
  rw [h]
  cases m.gate with
  | beforePlan => rfl
  | afterPlan => cases m.plan view <;> rfl

theorem run_of_gate {verb : Verb} {m : Mutation verb.Output} (hm : verb.mutation srv = .ok m)
    (hfast : m.fastPath (reg.view now guid) = .ok none)
    (hgate : modegateCheck m.intent (modeFor reg.reader m.target) m.target.scopeName = .ok ()) :
    verb.run srv reg now guid
      = m.plan (reg.view now guid) >>= fun plan => .ok (plan.output, reg.apply plan) := by
  rw [run_of_mutation hm hfast, gatedPlan_of_gate hgate]

/-- The container after a request whose call applies a plan. -/
theorem step_of_run {verb : Verb} {out : verb.Output}
    (h : verb.run srv reg now guid = .ok (out, reg')) : reg.step srv ⟨verb, now, guid⟩ = reg' := by
  unfold Registry.step
  rw [h]

/-! ### Calls that leave settings alone -/

theorem HardDeletes.sparesSettings {r : Reader} {also : List (String × UInt32)}
    {q : QualifiedSubject} {v : UInt32} {vr : VersionRecord} {w : Write}
    (h : HardDeletes r also q v vr w) : w.SparesSettings := by
  intro scope
  cases h <;> simp [Write.keys]

theorem sparesSettings_register {view : ReadView} {m : RegisterSchema}
    {plan : Plan RegisterResponse} (h : m.plan srv view = .ok plan) :
    ∀ w ∈ plan.writes, w.SparesSettings := by
  intro w hw
  rcases registerPlan_cases h with ⟨out, -, rfl⟩ | ⟨x, version, id, -, -, -, rfl⟩
  · cases hw
  · rcases List.mem_append.mp hw with hw | hw
    · rcases mem_replaced.mp hw with ⟨vr, -, hdel⟩ | ⟨p, -, -, -, -, hdel⟩
      · exact hdel.sparesSettings
      · exact hdel.sparesSettings
    · intro scope
      cases mem_added.mp hw <;> simp [Write.keys]

end SchemaRegistry
