import SchemaRegistry.Proto.Reach
import Mathlib.Data.Fin.VecNotation

/-!
When the comparison of Protobuf schemas terminates. The stack holds the messages of the writer whose
fields are under way, and grows with every message entered; the walk over nested messages leaves it
as it is and goes down. So the messages left to enter, and among equal ones the place of the
message, bound the calls. The type of a field is followed through map entries with no such guard: an
entry written out by hand may be its own value. So the comparison terminates exactly if the types of
the fields it compares do.
-/

namespace SchemaRegistry.Proto

open Lib

/-! ### The guard -/

namespace Pool

variable (p : Pool)

/-- Messages whose fields can still be entered. -/
def unentered (stack : List String) : Nat :=
  ((List.finRange p.size).filter fun m => (p.message m).fullName ∉ stack).length

variable {p}

theorem unentered_append {stack : List String} {m : p.Msg} (h : (p.message m).fullName ∉ stack) :
    p.unentered (stack ++ [(p.message m).fullName]) < p.unentered stack := by
  have hfilter : (List.finRange p.size).filter
      (fun k => (p.message k).fullName ∉ stack ++ [(p.message m).fullName])
      = ((List.finRange p.size).filter fun k => (p.message k).fullName ∉ stack).filter
        fun k => (p.message k).fullName ≠ (p.message m).fullName := by
    rw [List.filter_filter]
    refine List.filter_congr fun k _ => ?_
    simp [and_comm]
  rw [unentered, unentered, hfilter]
  refine List.length_filter_lt_length_iff_exists.mpr ⟨m, ?_, by simp⟩
  simpa using h

/-- A call under a stack makes calls under a longer one when it enters the fields of its message,
and calls for nested messages under the same one. -/
theorem stack_induction {motive : List String → p.Msg → Prop}
    (step : ∀ stack m,
      ((p.message m).fullName ∉ stack → ∀ k, motive (stack ++ [(p.message m).fullName]) k) →
      (∀ c ∈ (p.message m).children, motive stack c) → motive stack m)
    (stack : List String) (m : p.Msg) : motive stack m := by
  induction hleft : p.unentered stack using Nat.strong_induction_on generalizing stack m with
  | _ left ihleft =>
    induction hbelow : p.size - m.val using Nat.strong_induction_on generalizing m with
    | _ below ihbelow =>
      refine step stack m (fun hnew k => ?_) fun c hc => ?_
      · exact ihleft _ (hleft ▸ unentered_append hnew) _ k rfl
      · have hlt : m.val < c.val := p.nesting m c hc
        have := c.isLt
        exact ihbelow _ (by omega) c rfl

end Pool

/-! ### Levels of the comparison -/

section Levels

variable {w r : ProtoSchema} {s : Bool} {rec : Nat → Compare w r} {stack : List String}

theorem halts_compareMessageTypes {om : w.Msg} {um : r.Msg}
    (hrec : w.pool.localName om = r.pool.localName um → (s && sameOrigin w r om um) = false →
      Halts fun n => rec n stack (w.pool.localPath om) om um) (path : List String) :
    Halts fun n => compareMessageTypes s (rec n) stack path om um := by
  unfold compareMessageTypes
  split
  · exact halts_const _
  · next hname =>
      split
      · exact halts_const _
      · next hgo =>
          exact Halts.bind (hrec (not_not.mp hname) (by simpa using hgo)) fun diffs _ =>
            halts_const _

theorem halts_compareLabelsAndTypes {ot : FieldType w.Msg} {ut : FieldType r.Msg}
    (hrec : ∀ om um, ot.Meets ut om um → w.pool.localName om = r.pool.localName um →
      (s && sameOrigin w r om um) = false → Halts fun n => rec n stack (w.pool.localPath om) om um)
    (path : List String) (ol ul : Option Label) :
    Halts fun n => compareLabelsAndTypes s (rec n) stack path ol ul ot ut := by
  induction ot generalizing ut ol ul with
  | map ok ov ihk ihv =>
    cases ut with
    | map uk uv =>
      refine Halts.bind (ihk (fun om um h => hrec om um (.key h)) none none) fun keys _ => ?_
      exact Halts.bind (ihv (fun om um h => hrec om um (.value h)) none none) fun values _ =>
        halts_const _
    | _ => exact halts_const _
  | message om =>
    cases ut with
    | message um => exact halts_compareMessageTypes (hrec om um (.message om um)) path
    | _ => exact halts_const _
  | scalar s => cases ut <;> exact halts_const _
  | enum => cases ut <;> exact halts_const _

theorem halts_compareMessageBody {o : w.Msg} {u : r.Msg}
    (h : ∀ a b, Compared o u a b → ∀ path, Halts fun n => compareField s n
      (rec n) stack path o u a b)
    (path : List String) : Halts fun n => compareMessageBody s n (rec n) stack path o u := by
  refine Halts.bind (halts_collect fun name _ => ?_) fun oneofs _ =>
    Halts.bind (halts_collect fun tag _ => ?_) fun fields _ => halts_const _
  · dsimp only
    split
    · exact halts_const _
    · exact halts_const _
    · next of uf hof huf =>
        refine halts_collect fun tag _ => ?_
        dsimp only
        split
        · exact halts_const _
        · exact halts_const _
        · next a b ha hb =>
            obtain ⟨hao, hbu, hnumber⟩ := find?_numbers ha hb
            exact h a b ⟨hnumber, .inr ⟨name, of, uf, hof, huf, hao, hbu⟩⟩ _
        · exact halts_const _
    · exact halts_const _
  · dsimp only
    split
    · exact halts_const _
    · exact halts_const _
    · next a b ha hb =>
        obtain ⟨hao, hbu, hnumber⟩ := find?_numbers ha hb
        exact h a b ⟨hnumber, .inl ⟨movedFields_subset path o u hao, hbu⟩⟩ _
    · exact halts_const _

theorem halts_compareTypes {os : List w.Msg} {us : List r.Msg}
    (hrec : ∀ o u, Paired os us o u → ∀ path, Halts fun n => rec n stack path o u)
    (path : List String) : Halts fun n => compareTypes (rec n) stack path os us := by
  refine halts_collect fun name _ => ?_
  dsimp only
  split
  · exact halts_const _
  · exact halts_const _
  · next o i u j ho hu =>
      exact Halts.bind (hrec o u (paired_of_find ho hu).1 _) fun diffs _ => halts_const _
  · exact halts_const _

end Levels

section Comparison

variable {w r : ProtoSchema} {s : Bool}

theorem halts_compareMessage (hends : FieldsEnd s w r) {stack : List String} {o : w.Msg}
    {u : r.Msg} (hmet : Met s stack o u) (path : List String) :
    Halts fun n => compareMessage s n stack path o u := by
  refine Pool.stack_induction (motive := fun stack o => ∀ path u, Met s stack o u →
    Halts fun n => compareMessage s n stack path o u) ?_ stack o path u hmet
  intro stack o hfields hnested path u hmet
  refine Halts.of_succ ?_
  simp only [compareMessage]
  refine Halts.bind ?_ fun body _ => Halts.bind ?_ fun types _ => halts_const _
  · split
    · exact halts_const _
    · next hmem =>
        have hnew : (w.pool.message o).fullName ∉ stack := by simpa using hmem
        refine halts_compareMessageBody (fun a b hab path => ?_) path
        obtain ⟨⟨ot, hot⟩, ut, hut⟩ := hends stack o u hmet hnew a b hab
        refine Halts.bind hot.settles.halts fun ot' hot' => ?_
        refine Halts.bind hut.settles.halts fun ut' hut' => ?_
        refine Halts.bind (halts_compareLabelsAndTypes (fun om um h hname hgo => ?_) path _ _)
          fun types _ => halts_const _
        rw [hot'.unique hot.settles, hut'.unique hut.settles] at h
        exact hfields hnew om _ um (.field hmet hnew ⟨hname, a, b, ot, ut, hab, hot, hut, h⟩ hgo)
  · exact halts_compareTypes (fun c d hcd path =>
      hnested c (List.mem_of_mem_filter hcd.1) path d (.nested hmet hcd)) path

theorem halts_compareSchemas (hends : FieldsEnd s w r) : Halts fun n => compareSchemas s n w r := by
  unfold compareSchemas
  split
  · next wf rf hwf hrf =>
      refine Halts.bind (halts_compareTypes (fun o u hou path => ?_) []) fun types _ =>
        halts_const _
      exact halts_compareMessage hends (.outermost hwf hrf hou) path
  · exact halts_const _

/-! ### Comparisons that get stuck -/

theorem compareMessageBody_eq_none {n : Nat} {rec : Compare w r} {stack : List String}
    {o : w.Msg} {u : r.Msg} {a : w.Field}
    {b : r.Field} (hab : Compared o u a b)
    (h : ∀ path, compareField s n rec stack path o u a b = none) (path : List String) :
    compareMessageBody s n rec stack path o u = none := by
  change ((compareOneofs s n rec stack path o u).bind fun oneofs =>
    (compareRegular s n rec stack path o u (movedFields path o u).1).bind fun fields =>
      some ((movedFields path o u).2 ++ oneofs ++ fields)) = none
  obtain ⟨hnumber, ⟨ha, hb⟩ | ⟨name, of, uf, hof, huf, ha, hb⟩⟩ := hab
  · have hfields : compareRegular s n rec stack path o u (movedFields path o u).1 = none := by
      refine collect_eq_none (x := a.number) ?_ ?_
      · have htag : a.number ∈ (r.pool.regular u).map (·.number) :=
          List.mem_map.mpr ⟨b, hb, hnumber.symm⟩
        simp [JavaSet.ordered, mem_byBucket, JavaSet.mem_keys_extend, mem_mapOrder, htag]
      · have hleft := List.Subset.trans (movedFields_subset path o u) Pool.regular_subset
        have hfind := Pool.find?_number Pool.regular_subset hb
        rw [← hnumber] at hfind
        simp only [Pool.find?_number hleft (mem_movedFields ha hb hnumber), hfind, h]
    rw [hfields]
    cases compareOneofs s n rec stack path o u <;> rfl
  · have honeofs : compareOneofs s n rec stack path o u = none := by
      have hmem {x : List w.Field} (hx : (w.pool.oneofs o).lookup name = some x) :
          name ∈ (w.pool.oneofs o).map (·.1) := by
        obtain ⟨before, after, hsplit, -⟩ := List.lookup_eq_some_iff.mp hx
        simp [hsplit]
      refine collect_eq_none (x := name) (mem_unionOrder.mpr (.inl (hmem hof))) ?_
      simp only [hof, huf]
      refine collect_eq_none (x := a.number)
        (mem_unionOrder.mpr (.inl (List.mem_map.mpr ⟨a, ha, rfl⟩))) ?_
      have hfind := Pool.find?_number (Pool.oneof_fields huf) hb
      rw [← hnumber] at hfind
      simp only [Pool.find?_number (Pool.oneof_fields hof) ha, hfind, h]
    rw [honeofs]
    rfl

theorem compareTypes_eq_none {rec : Compare w r} {stack : List String} {os : List w.Msg}
    {us : List r.Msg} (hos : w.pool.Level os) (hus : r.pool.Level us)
    {o : w.Msg} {u : r.Msg} (hou : Paired os us o u)
    (h : ∀ path, rec stack path o u = none) (path : List String) :
    compareTypes rec stack path os us = none := by
  obtain ⟨ho, hu, hname⟩ := hou
  obtain ⟨i, hi⟩ := hos.find? ho
  obtain ⟨j, hj⟩ := hus.find? hu
  rw [← hname] at hj
  refine collect_eq_none (x := (w.pool.message o).name)
    (mem_unionOrder.mpr (.inl (List.mem_map.mpr ⟨o, ho, rfl⟩))) ?_
  simp only [hi, hj, h]
  rfl

theorem compareLabelsAndTypes_eq_none {rec : Compare w r} {stack : List String}
    {ot : FieldType w.Msg} {ut : FieldType r.Msg} {om : w.Msg}
    {um : r.Msg} (hmeets : ot.Meets ut om um)
    (hname : w.pool.localName om = r.pool.localName um) (hgo : (s && sameOrigin w r om um) = false)
    (h : rec stack (w.pool.localPath om) om um = none) (path : List String) (ol ul : Option Label) :
    compareLabelsAndTypes s rec stack path ol ul ot ut = none := by
  induction hmeets generalizing ol ul with
  | message m n => simp [compareLabelsAndTypes, compareMessageTypes, hname, hgo, h]
  | key _ ih => simp [compareLabelsAndTypes, ih hname hgo h]
  | @value k v k' v' m n _ ih =>
    rw [compareLabelsAndTypes, ih hname hgo h]
    cases compareLabelsAndTypes s rec stack path none none k k' <;> rfl

theorem compareMessage_eq_none {stack : List String} {o : w.Msg} {u : r.Msg}
    {a : w.Field} {b : r.Field}
    (hnew : (w.pool.message o).fullName ∉ stack) (hab : Compared o u a b)
    (h : ∀ n path, compareField s n (compareMessage s n) (stack ++ [(w.pool.message o).fullName])
      path o u a b = none) (n : Nat) (path : List String) : compareMessage s n stack path o u
        = none := by
  cases n with
  | zero => rfl
  | succ n => simp [compareMessage, hnew, compareMessageBody_eq_none hab (h n)]

/-- Where two messages that are compared get stuck, the whole comparison does. -/
theorem Met.stuck {stack : List String} {o : w.Msg} {u : r.Msg}
    (hmet : Met s stack o u) (h : ∀ n path, compareMessage s n stack path o u = none) (n : Nat) :
    compareSchemas s n w r = none := by
  induction hmet with
  | outermost hwf hrf hou =>
    have htypes := compareTypes_eq_none (level_outermost hwf) (level_outermost hrf) hou (h n) []
    simp [compareSchemas, hwf, hrf, htypes]
  | nested _ hcd ih =>
    refine ih fun k path => ?_
    cases k with
    | zero => rfl
    | succ k =>
      rw [compareMessage, compareTypes_eq_none Pool.level_children Pool.level_children
        hcd (h k) path]
      simp
  | @field stack o om u um _ hnew hleads hgo ih =>
    obtain ⟨hname, a, b, ot, ut, hab, hot, hut, hmeets⟩ := hleads
    refine ih (compareMessage_eq_none hnew hab fun k path => ?_)
    have htypes := compareLabelsAndTypes_eq_none hmeets hname hgo (h k (w.pool.localPath om)) path
    unfold compareField
    cases hat : w.pool.fieldType k a with
    | none => rfl
    | some ot' =>
    cases hbt : r.pool.fieldType k b with
    | none => rfl
    | some ut' =>
    rw [(Pool.hasType_of_fieldType hat).unique hot, (Pool.hasType_of_fieldType hbt).unique hut]
    simp [htypes]

/-- A comparison that ever comes to an end has found types for all its fields. -/
theorem fieldsEnd_of_some {k : Nat} {diffs : List Diff} (h : compareSchemas s k w r = some diffs) :
    FieldsEnd s w r := by
  intro stack o u hmet hnew a b hab
  by_contra hno
  have hnone := hmet.stuck (compareMessage_eq_none hnew hab fun n path => ?_) k
  · cases h.symm.trans hnone
  unfold compareField
  cases hat : w.pool.fieldType n a with
  | none => rfl
  | some ot =>
  cases hbt : r.pool.fieldType n b with
  | none => rfl
  | some ut =>
    exact absurd ⟨⟨ot, Pool.hasType_of_fieldType hat⟩, ut, Pool.hasType_of_fieldType hbt⟩ hno

end Comparison

/-- The comparison finishes, all large enough bounds on its calls giving the same answer, exactly if
the types of the fields it compares come to an end. -/
theorem canRead_terminates (reader writer : ProtoSchema) (labels : Labels) :
    (Halts fun n => canRead n reader writer labels) ↔ FieldsEnd true writer reader := by
  refine ⟨fun ⟨texts, n, hn⟩ => ?_, fun h => Halts.map (halts_compareSchemas h)⟩
  obtain ⟨diffs, hdiffs, -⟩ := Option.map_eq_some_iff.mp (hn n (Nat.le_refl n))
  exact fieldsEnd_of_some hdiffs

/-- A file with `message M` and, inside it, an entry type that `M` has a field of:
`message E { option map_entry = true; string key = 1; … value = 2; }`. -/
def entryMessages (value : FieldInfo (Fin 2)) : Fin 2 → MessageInfo (Fin 2) :=
  ![⟨"M", "M", ⟨rootFile, "", .proto3⟩, false,
      [⟨"m", 1, .message 1, .repeated, false, none⟩], [], [1]⟩,
    ⟨"E", "M.E", ⟨rootFile, "", .proto3⟩, true,
      [⟨"key", 1, .scalar .string, .optional, false, none⟩, { value with number := 2 }], [], []⟩]

abbrev entryPool (value : FieldInfo (Fin 2)) : Pool where
  size := 2
  message := entryMessages value
  nesting := by simp [Fin.forall_fin_two, entryMessages]
  inside := by simp [Fin.forall_fin_two, entryMessages]
  simple := by simp [Fin.forall_fin_two, entryMessages]
  distinct := by simp [Fin.forall_fin_two, entryMessages]
  numbers := by simp [Fin.forall_fin_two, entryMessages]

def entrySchema (value : FieldInfo (Fin 2)) : ProtoSchema where
  pool := entryPool value
  root := some ⟨"", [(0 : Fin 2)]⟩
  deps := []
  outermost := by simp [entryPool, entryMessages, qualify]

/-- `map<string, int32> m = 1;`. -/
def counts : ProtoSchema := entrySchema ⟨"value", 2, .scalar .int32, .optional, false, none⟩

theorem canRead_terminates_counts : Halts fun n => canRead n counts counts ⟨"new", "old"⟩ := by
  have hends : ∀ m, ∀ f ∈ (counts.pool.message m).fields, ∃ t, counts.pool.HasType f t := by
    change ∀ m : Fin 2, _
    simp only [Fin.forall_fin_two]
    refine ⟨?_, ?_⟩
    · rintro f (_ | ⟨_, ⟨⟩⟩)
      exact ⟨_, .map (e := (1 : Fin 2)) rfl rfl rfl (.plain rfl) (.plain rfl)⟩
    · rintro f (_ | ⟨_, _ | ⟨_, ⟨⟩⟩⟩)
      · exact ⟨_, .plain rfl⟩
      · exact ⟨_, .plain rfl⟩
  exact (canRead_terminates counts counts _).mpr (fieldsEnd_of_forall hends hends)

/-- `repeated E value = 2;`. -/
def endless : ProtoSchema := entrySchema ⟨"value", 2, .message 1, .repeated, false, none⟩

theorem fieldType_endless (n : Nat) (name : String) (number : UInt32) :
    endless.pool.fieldType n
      ⟨name, number, .message (1 : Fin 2), .repeated, false, none⟩ = none := by
  induction n generalizing name number with
  | zero => rfl
  | succ n ih =>
    have hvalue : (endless.pool.entryField (1 : Fin 2) 2).bind (endless.pool.fieldType n) = none :=
      ih "value" 2
    show ((endless.pool.entryField (1 : Fin 2) 1).bind (endless.pool.fieldType n)).bind _ = none
    rw [hvalue]
    cases (endless.pool.entryField (1 : Fin 2) 1).bind (endless.pool.fieldType n) <;> rfl

theorem canRead_endless : ¬ Halts fun n => canRead n endless endless ⟨"new", "old"⟩ := by
  rw [canRead_terminates]
  intro h
  have hmet : Met (w := endless) (r := endless) true [] (0 : Fin 2) (0 : Fin 2) :=
    .outermost rfl rfl ⟨List.mem_singleton_self _, List.mem_singleton_self _, rfl⟩
  obtain ⟨⟨t, ht⟩, -⟩ := h [] _ _ hmet (by simp) _ _
    ⟨rfl, .inl ⟨List.mem_singleton_self _, List.mem_singleton_self _⟩⟩
  obtain ⟨n, hn⟩ := ht.settles
  cases (fieldType_endless n "m" 1).symm.trans (hn n (Nat.le_refl n))

end SchemaRegistry.Proto
