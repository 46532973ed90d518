import SchemaRegistry.Schema.Proto.Diff
import Mathlib.Data.List.Nodup

/-!
What a comparison of Protobuf schemas comes to. Two messages are met on the walk over what the files
declare, or where two fields of one number name them; the stack under which they are met says
whether their own fields are compared.
-/

namespace SchemaRegistry.Proto

open Lib

/-! ### Types of fields -/

/-- The type of a field, if following its map entries comes to an end. -/
inductive Pool.HasType (p : Pool) : p.Field → FieldType p.Msg → Prop
  | plain {f : p.Field} (h : p.mapEntryOf f = none) : HasType p f (.ofKind f.kind)
  | map {f key value : p.Field} {e : p.Msg} {k v : FieldType p.Msg}
      (h : p.mapEntryOf f = some e) (hkey : p.entryField e 1 = some key)
      (hvalue : p.entryField e 2 = some value) (hk : HasType p key k) (hv : HasType p value v) :
      HasType p f (.map k v)

theorem Pool.HasType.settles {p : Pool} {f : p.Field} {t : FieldType p.Msg}
    (h : p.HasType f t) : Settles (fun n => p.fieldType n f) t := by
  induction h with
  | plain h =>
    refine Settles.of_succ ?_
    simpa only [fieldType, h] using settles_const _
  | map h hkey hvalue _ _ ihk ihv =>
    refine Settles.of_succ ?_
    simp only [fieldType, h, hkey, hvalue, Option.bind_some]
    exact ihk.bind (ihv.bind (settles_const _))

theorem Pool.HasType.unique {p : Pool} {f : p.Field} {t t' : FieldType p.Msg}
    (h : p.HasType f t) (h' : p.HasType f t') : t = t' := h.settles.unique h'.settles

theorem Pool.hasType_of_fieldType {p : Pool} {n : Nat} {f : p.Field}
    {t : FieldType p.Msg} (h : p.fieldType n f = some t) : p.HasType f t := by
  induction n generalizing f t with
  | zero => cases h
  | succ n ih =>
    rw [fieldType] at h
    split at h
    · next e he =>
        obtain ⟨k, hk, h⟩ := Option.bind_eq_some_iff.mp h
        obtain ⟨v, hv, h⟩ := Option.bind_eq_some_iff.mp h
        cases h
        obtain ⟨key, hkey, hk⟩ := Option.bind_eq_some_iff.mp hk
        obtain ⟨value, hvalue, hv⟩ := Option.bind_eq_some_iff.mp hv
        exact .map he hkey hvalue (ih hk) (ih hv)
    · next he =>
        cases h
        exact .plain he

theorem Pool.hasType_of_noEntries {p : Pool} (h : ∀ e, (p.message e).mapEntry = false)
    (f : p.Field) : p.HasType f (.ofKind f.kind) := by
  refine .plain ?_
  unfold mapEntryOf
  split
  · next e _ => simp [h e]
  · rfl

/-- Messages that two types have in the same place. -/
inductive FieldType.Meets {M N : Type} : FieldType M → FieldType N → M → N → Prop
  | message (m : M) (n : N) : Meets (.message m) (.message n) m n
  | key {k v : FieldType M} {k' v' : FieldType N} {m : M} {n : N} (h : Meets k k' m n) :
      Meets (.map k v) (.map k' v') m n
  | value {k v : FieldType M} {k' v' : FieldType N} {m : M} {n : N} (h : Meets v v' m n) :
      Meets (.map k v) (.map k' v') m n

/-! ### Fields by number, messages by name -/

namespace Pool

variable {p : Pool} {m : p.Msg}

theorem find?_number {fs : List p.Field} (hfs : fs ⊆ (p.message m).fields)
    {f : p.Field} (hf : f ∈ fs) : fs.find? (·.number == f.number) = some f := by
  cases hfind : fs.find? (·.number == f.number) with
  | none => exact absurd (List.find?_eq_none.mp hfind f hf) (by simp)
  | some g =>
    have hnumber : g.number = f.number := by simpa using List.find?_some hfind
    rw [List.inj_on_of_nodup_map (p.numbers m) (hfs (List.mem_of_find?_eq_some hfind)) (hfs hf)
      hnumber]

theorem regular_subset : p.regular m ⊆ (p.message m).fields := List.filter_sublist.subset

theorem oneof_fields {name : String} {fs : List p.Field}
    (h : (p.oneofs m).lookup name = some fs) : fs ⊆ (p.message m).fields := by
  obtain ⟨before, after, hsplit, -⟩ := List.lookup_eq_some_iff.mp h
  have hmem : (name, fs) ∈ p.oneofs m := hsplit ▸ List.mem_append_right before List.mem_cons_self
  obtain ⟨q, -, hq⟩ := List.mem_map.mp hmem
  obtain ⟨-, rfl⟩ := Prod.mk.inj hq
  exact List.filter_sublist.subset

/-- A field outside oneofs shares its number with none inside. -/
theorem number_ne_of_regular {b f : p.Field} (hb : b ∈ p.regular m)
    {x : String × List p.Field} (hx : x ∈ p.oneofs m) (hf : f ∈ x.2) :
    b.number ≠ f.number := by
  intro heq
  obtain ⟨hb, hnone⟩ := List.mem_filter.mp hb
  obtain ⟨⟨oneof, i⟩, hi, rfl⟩ := List.mem_map.mp hx
  obtain ⟨hf, hfi⟩ := List.mem_filter.mp hf
  obtain ⟨hi, hreal⟩ := List.mem_filter.mp hi
  obtain rfl : b = f := List.inj_on_of_nodup_map (p.numbers m) hb hf heq
  have hget := List.mk_mem_zipIdx_iff_getElem?.mp hi
  simp_all [Pool.oneofOf]

/-- The messages of a level go by different names. -/
def Level (p : Pool) (ms : List p.Msg) : Prop :=
  ∀ k ∈ ms, ∀ m ∈ ms, (p.message k).name = (p.message m).name → k = m

theorem level_children : p.Level (p.named (p.message m).children) := by
  intro k hk c hc hname
  refine p.distinct k c ?_
  rw [(p.inside m k (List.mem_of_mem_filter hk)).2, (p.inside m c (List.mem_of_mem_filter hc)).2,
    hname]

theorem Level.find? {ms : List p.Msg} (h : p.Level ms) (hm : m ∈ ms) :
    ∃ i, ms.zipIdx.find? (fun q => (p.message q.1).name == (p.message m).name) = some (m, i) := by
  cases hfind : ms.zipIdx.find? (fun q => (p.message q.1).name == (p.message m).name) with
  | none =>
    obtain ⟨i, hi, rfl⟩ := List.mem_iff_getElem.mp hm
    have hnone := List.find?_eq_none.mp hfind _
      (List.mk_mem_zipIdx_iff_getElem?.mpr (List.getElem?_eq_getElem hi))
    simp at hnone
  | some q =>
    obtain ⟨k, i⟩ := q
    have hk := List.fst_mem_of_mem_zipIdx (List.mem_of_find?_eq_some hfind)
    obtain rfl : k = m := h k hk m hm (by simpa using List.find?_some hfind)
    exact ⟨i, rfl⟩

end Pool

theorem level_outermost {s : ProtoSchema} {rf : RootFile s.Msg} (hrf : s.root = some rf) :
    s.pool.Level (s.pool.named rf.messages) := by
  intro k hk c hc hname
  refine s.pool.distinct k c ?_
  rw [(s.outermost rf hrf k (List.mem_of_mem_filter hk)).2.2,
    (s.outermost rf hrf c (List.mem_of_mem_filter hc)).2.2, hname]

section Sides

variable {w r : ProtoSchema}

/-- Two messages of one level that go by the same name. -/
def Paired (os : List w.Msg) (us : List r.Msg) (o : w.Msg)
    (u : r.Msg) : Prop :=
  o ∈ os ∧ u ∈ us ∧ (w.pool.message o).name = (r.pool.message u).name

theorem paired_of_find {os : List w.Msg} {us : List r.Msg} {name : String}
    {o : w.Msg} {u : r.Msg} {i j : Nat}
    (ho : os.zipIdx.find? (fun p => (w.pool.message p.1).name == name) = some (o, i))
    (hu : us.zipIdx.find? (fun p => (r.pool.message p.1).name == name) = some (u, j)) :
    Paired os us o u ∧ (w.pool.message o).name = name := by
  have hname : (w.pool.message o).name = name := by simpa using List.find?_some ho
  have hname' : (r.pool.message u).name = name := by simpa using List.find?_some hu
  exact ⟨⟨List.fst_mem_of_mem_zipIdx (List.mem_of_find?_eq_some ho),
    List.fst_mem_of_mem_zipIdx (List.mem_of_find?_eq_some hu), hname.trans hname'.symm⟩, hname⟩

/-! ### Fields that moved into a oneof -/

/-- The fields of the writer that stay outside oneofs, with the differences of those that do not. -/
def movedFields (path : List String) (o : w.Msg) (u : r.Msg) :
    List w.Field × List Diff :=
  (r.pool.oneofs u).foldl
    (compareMoved path ((w.pool.oneofs o).flatMap fun x => x.2.map (·.number)))
      (w.pool.regular o, [])

theorem takeMoved_subset {tags : List UInt32} {fs : List r.Field} {st : List w.Field × Nat × Nat} :
    (fs.foldl (takeMoved tags) st).1 ⊆ st.1 := by
  induction fs generalizing st with
  | nil => exact List.Subset.refl _
  | cons f fs ih =>
    refine List.Subset.trans ih ?_
    unfold takeMoved
    split
    · exact (List.eraseIdx_sublist _ _).subset
    · exact List.Subset.refl _

theorem movedFields_subset (path : List String) (o : w.Msg) (u : r.Msg) :
    (movedFields path o u).1 ⊆ w.pool.regular o := by
  have hrun {tags : List UInt32} {oneofs : List (String × List r.Field)}
      {st : List w.Field × List Diff} :
      (oneofs.foldl (compareMoved path tags) st).1 ⊆ st.1 := by
    induction oneofs generalizing st with
    | nil => exact List.Subset.refl _
    | cons x xs ih => exact List.Subset.trans ih takeMoved_subset
  exact hrun

/-- A field stays where none of the reader's has its number. -/
theorem mem_takeMoved {tags : List UInt32} {fs : List r.Field}
    {st : List w.Field × Nat × Nat} {a : w.Field}
    (ha : a ∈ st.1) (h : ∀ f ∈ fs, a.number ≠ f.number) : a ∈ (fs.foldl (takeMoved tags) st).1 := by
  induction fs generalizing st with
  | nil => exact ha
  | cons f fs ih =>
    obtain ⟨hf, hfs⟩ := List.forall_mem_cons.mp h
    refine ih ?_ hfs
    unfold takeMoved
    split
    · next i hi =>
        obtain ⟨hlt, hnumber, -⟩ := List.findIdx?_eq_some_iff_getElem.mp hi
        obtain ⟨k, hk⟩ := List.mem_iff_getElem?.mp ha
        refine List.mem_eraseIdx_iff_getElem?.mpr ⟨k, fun hki => ?_, hk⟩
        rw [hki, List.getElem?_eq_getElem hlt] at hk
        cases hk
        exact hf (by simpa using hnumber)
    · exact ha

theorem mem_movedFields {path : List String} {o : w.Msg} {u : r.Msg}
    {a : w.Field} {b : r.Field} (ha : a ∈ w.pool.regular o)
    (hb : b ∈ r.pool.regular u) (hnumber : a.number = b.number) : a ∈ (movedFields path o u).1 := by
  have hrun {tags : List UInt32} {oneofs : List (String × List r.Field)}
      {st : List w.Field × List Diff}
      (h : ∀ x ∈ oneofs, ∀ f ∈ x.2, a.number ≠ f.number) (ha : a ∈ st.1) :
      a ∈ (oneofs.foldl (compareMoved path tags) st).1 := by
    induction oneofs generalizing st with
    | nil => exact ha
    | cons x xs ih =>
      obtain ⟨hx, hxs⟩ := List.forall_mem_cons.mp h
      refine ih hxs ?_
      show a ∈ (x.2.foldl (takeMoved tags) (st.1, 0, 0)).1
      exact mem_takeMoved ha hx
  exact hrun (fun x hx f hf => hnumber ▸ Pool.number_ne_of_regular hb hx hf) ha

/-! ### What is compared -/

/-- Two fields that are compared: they have one number, and both are outside oneofs or in oneofs of
one name. -/
def Compared (o : w.Msg) (u : r.Msg) (a : w.Field)
    (b : r.Field) : Prop :=
  a.number = b.number ∧ (a ∈ w.pool.regular o ∧ b ∈ r.pool.regular u
    ∨ ∃ name of uf, (w.pool.oneofs o).lookup name = some of
      ∧ (r.pool.oneofs u).lookup name = some uf ∧ a ∈ of ∧ b ∈ uf)

/-- Fields found under one number. -/
theorem find?_numbers {M N : Type} {as : List (FieldInfo M)} {bs : List (FieldInfo N)}
    {tag : UInt32} {a : FieldInfo M} {b : FieldInfo N} (ha : as.find? (·.number == tag) = some a)
    (hb : bs.find? (·.number == tag) = some b) : a ∈ as ∧ b ∈ bs ∧ a.number = b.number := by
  have hnumber : a.number = tag := by simpa using List.find?_some ha
  have hnumber' : b.number = tag := by simpa using List.find?_some hb
  exact ⟨List.mem_of_find?_eq_some ha, List.mem_of_find?_eq_some hb, hnumber.trans hnumber'.symm⟩

/-- Two fields that are compared have types with two messages in the same place, of one name. -/
def Leads (o : w.Msg) (u : r.Msg) (om : w.Msg) (um : r.Msg) :
    Prop :=
  w.pool.localName om = r.pool.localName um ∧ ∃ a b ot ut, Compared o u a b
    ∧ w.pool.HasType a ot ∧ r.pool.HasType b ut ∧ ot.Meets ut om um

/-- Two messages are compared under a stack; `s` says that types of the same origin are skipped. -/
inductive Met (s : Bool) : List String → w.Msg → r.Msg → Prop
  | outermost {wf : RootFile w.Msg} {rf : RootFile r.Msg}
      {o : w.Msg} {u : r.Msg} (hw : w.root = some wf) (hr : r.root = some rf)
      (h : Paired (w.pool.named wf.messages) (r.pool.named rf.messages) o u) : Met s [] o u
  | nested {stack : List String} {o c : w.Msg} {u d : r.Msg} (h : Met s stack o u)
      (hcd : Paired (w.pool.named (w.pool.message o).children)
        (r.pool.named (r.pool.message u).children) c d) : Met s stack c d
  | field {stack : List String} {o om : w.Msg} {u um : r.Msg} (h : Met s stack o u)
      (hnew : (w.pool.message o).fullName ∉ stack) (hleads : Leads o u om um)
      (hgo : (s && sameOrigin w r om um) = false) :
      Met s (stack ++ [(w.pool.message o).fullName]) om um

end Sides

/-- Every two fields that are compared have a type. -/
def FieldsEnd (s : Bool) (w r : ProtoSchema) : Prop :=
  ∀ stack (o : w.Msg) (u : r.Msg), Met s stack o u → (w.pool.message o).fullName ∉ stack →
    ∀ a b, Compared o u a b → (∃ t, w.pool.HasType a t) ∧ ∃ t, r.pool.HasType b t

theorem Compared.mem {w r : ProtoSchema} {o : w.Msg} {u : r.Msg}
    {a : w.Field} {b : r.Field} (h : Compared o u a b) :
    a ∈ (w.pool.message o).fields ∧ b ∈ (r.pool.message u).fields := by
  obtain ⟨-, ⟨ha, hb⟩ | ⟨name, of, uf, hof, huf, ha, hb⟩⟩ := h
  · exact ⟨Pool.regular_subset ha, Pool.regular_subset hb⟩
  · exact ⟨Pool.oneof_fields hof ha, Pool.oneof_fields huf hb⟩

/-- Schemas of which every field has a type. -/
theorem fieldsEnd_of_forall {s : Bool} {w r : ProtoSchema}
    (hw : ∀ m, ∀ f ∈ (w.pool.message m).fields, ∃ t, w.pool.HasType f t)
    (hr : ∀ m, ∀ f ∈ (r.pool.message m).fields, ∃ t, r.pool.HasType f t) : FieldsEnd s w r :=
  fun _ o u _ _ a b hab => ⟨hw o a hab.mem.1, hr u b hab.mem.2⟩

end SchemaRegistry.Proto
