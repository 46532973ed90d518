import Mathlib.Data.List.Basic

/-!
Tables that remember results. A call looks its key up and runs the function only when
there is no entry; entries may go at any time. A table is sound when each entry is the
result on an input that has its key and is still vouched for. A call on a sound table
gives what the function gives, if inputs that are vouched for and share the key share
the result.
-/

namespace SchemaRegistry.Lib

/-- A partial map; what it has forgotten it does not have. -/
abbrev Memo (K V : Type) := K → Option V

namespace Memo

variable {A K V ε : Type} {t : Memo K V} {key : A → K} {f : A → Except ε V}
  {ok ok' : A → Prop} {a : A}

/-- Every entry is the result on an input that has its key and is vouched for. -/
def Sound (t : Memo K V) (key : A → K) (f : A → Except ε V) (ok : A → Prop) : Prop :=
  ∀ k v, t k = some v → ∃ a, key a = k ∧ ok a ∧ f a = .ok v

theorem sound_empty : Sound (fun _ : K => (none : Option V)) key f ok := by
  intro k v h
  cases h

theorem Sound.mono (h : t.Sound key f ok) (hok : ∀ a, ok a → ok' a) : t.Sound key f ok' := by
  intro k v hv
  obtain ⟨a, hkey, ha, hf⟩ := h k v hv
  exact ⟨a, hkey, hok a ha, hf⟩

variable [DecidableEq K]

def insert (t : Memo K V) (k : K) (v : V) : Memo K V := fun k' => if k' = k then some v else t k'

def forget (t : Memo K V) (k : K) : Memo K V := fun k' => if k' = k then none else t k'

/-- Look up, else compute and keep. A failure is not kept. -/
def call (t : Memo K V) (key : A → K) (f : A → Except ε V) (a : A) : Except ε V × Memo K V :=
  match t (key a) with
  | some v => (.ok v, t)
  | none =>
      match f a with
      | .ok v => (.ok v, t.insert (key a) v)
      | .error e => (.error e, t)

theorem Sound.forget (h : t.Sound key f ok) (k : K) : (t.forget k).Sound key f ok := by
  intro k' v hv
  unfold Memo.forget at hv
  split at hv
  · cases hv
  · exact h k' v hv

/-- A call is transparent. -/
theorem Sound.call_fst (h : t.Sound key f ok) (hkey : ∀ b, ok b → key b = key a → f b = f a) :
    (t.call key f a).1 = f a := by
  unfold call
  split
  · next v hv =>
      obtain ⟨b, hb, hok, hf⟩ := h _ v hv
      exact (hf.symm.trans (hkey b hok hb))
  · split
    · next hf => exact hf.symm
    · next hf => exact hf.symm

/-- What a call adds is vouched for if its input is. -/
theorem Sound.call_snd (h : t.Sound key f ok) (ha : ok a) : (t.call key f a).2.Sound key f ok := by
  unfold call
  split
  · exact h
  · split
    · next v hf =>
        intro k v' hv
        dsimp only [insert] at hv
        split at hv
        · next hk =>
            cases hv
            exact ⟨a, hk.symm, ha, hf⟩
        · exact h k v' hv
    · exact h

end Memo

end SchemaRegistry.Lib
