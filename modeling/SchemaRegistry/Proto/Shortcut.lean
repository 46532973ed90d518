import SchemaRegistry.Lib.Lists
import SchemaRegistry.Proto.Verdict
import Mathlib.Data.Fintype.Basic
import Mathlib.Tactic.FinCases

/-!
Skipping types of the same origin. Two types of the schema's own file are compared anyway, on the
walk over everything the file declares. Two types of a referenced file with the same text are taken
to be the same; they are when what the file imports is the same too, which its text does not say.
-/

namespace SchemaRegistry.Proto

open Lib Filter

/-! ### Messages that mean the same -/

section Alike

variable {w r : ProtoSchema} (R : w.Msg → r.Msg → Prop)

inductive KindAlike : Kind w.Msg → Kind r.Msg → Prop
  | scalar (s : Scalar) : KindAlike (.scalar s) (.scalar s)
  | enum : KindAlike .enum .enum
  | message {m : w.Msg} {k : r.Msg} (h : R m k) : KindAlike (.message m) (.message k)

structure FieldAlike (a : w.Field) (b : r.Field) : Prop where
  name : a.name = b.name
  number : a.number = b.number
  kind : KindAlike R a.kind b.kind
  label : a.label = b.label
  proto3Optional : a.proto3Optional = b.proto3Optional
  oneof : a.oneof = b.oneof

/-- Two messages declared in the same words, whose types are again related. -/
structure Alike (o : w.Msg) (u : r.Msg) : Prop where
  name : (w.pool.message o).name = (r.pool.message u).name
  localName : w.pool.localName o = r.pool.localName u
  dialect : (w.pool.message o).file.dialect = (r.pool.message u).file.dialect
  mapEntry : (w.pool.message o).mapEntry = (r.pool.message u).mapEntry
  fields : List.Forall₂ (FieldAlike R) (w.pool.message o).fields (r.pool.message u).fields
  oneofs : (w.pool.message o).oneofs = (r.pool.message u).oneofs
  children : List.Forall₂ R (w.pool.message o).children (r.pool.message u).children

/-- Related messages are declared alike, all the way down. -/
def Mirror : Prop := ∀ o u, R o u → Alike R o u

inductive TypeAlike : FieldType w.Msg → FieldType r.Msg → Prop
  | scalar (s : Scalar) : TypeAlike (.scalar s) (.scalar s)
  | enum : TypeAlike .enum .enum
  | message {m : w.Msg} {k : r.Msg} (h : R m k) : TypeAlike (.message m) (.message k)
  | map {k v : FieldType w.Msg} {k' v' : FieldType r.Msg}
      (hk : TypeAlike k k') (hv : TypeAlike v v') : TypeAlike (.map k v) (.map k' v')

variable {R}

theorem TypeAlike.ofKind {a : Kind w.Msg} {b : Kind r.Msg}
    (h : KindAlike R a b) : TypeAlike R (.ofKind a) (.ofKind b) := by
  cases h with
  | scalar s => exact .scalar s
  | enum => exact .enum
  | message h => exact .message h

theorem clean_scalars (path : List String) (l : Option Label) (k : ScalarKind) :
    Clean (some (compareScalars path l l k k)) := by
  cases l <;> simp [compareScalars]

theorem takeMoved_of_ne {left : List w.Field} {fs : List r.Field} (tags : List UInt32) (k : Nat)
    (h : ∀ f ∈ fs, ∀ a ∈ left, a.number ≠ f.number) :
    ∃ k', fs.foldl (takeMoved tags) (left, 0, k) = (left, 0, k') := by
  induction fs generalizing k with
  | nil => exact ⟨k, rfl⟩
  | cons f fs ih =>
    have hfind : left.findIdx? (·.number == f.number) = none := by
      simpa using h f List.mem_cons_self
    rw [List.foldl_cons, takeMoved]
    simp only [hfind]
    exact ih _ fun g hg => h g (List.mem_cons_of_mem f hg)

namespace Alike

variable {o : w.Msg} {u : r.Msg} (h : Alike R o u)

include h

theorem oneofOf {a : w.Field} {b : r.Field}
    (hab : FieldAlike R a b) : w.pool.oneofOf o a = r.pool.oneofOf u b := by
  rw [Pool.oneofOf, Pool.oneofOf, hab.oneof, h.oneofs]

theorem regular : List.Forall₂ (FieldAlike R) (w.pool.regular o) (r.pool.regular u) := by
  refine List.rel_filter (fun a b hab => ?_) h.fields
  simp [h.oneofOf hab]

theorem oneofLists : List.Forall₂ (fun x y => x.1 = y.1 ∧ List.Forall₂ (FieldAlike R) x.2 y.2)
    (w.pool.oneofs o) (r.pool.oneofs u) := by
  unfold Pool.oneofs
  rw [h.oneofs, List.forall₂_map_left_iff, List.forall₂_map_right_iff, List.forall₂_same]
  intro x _
  exact ⟨rfl, List.rel_filter (fun a b hab => by simp [hab.oneof]) h.fields⟩

theorem oneofByName (name : String) :
    (w.pool.oneofs o).lookup name = none ∧ (r.pool.oneofs u).lookup name = none
      ∨ ∃ of uf, (w.pool.oneofs o).lookup name = some of ∧ (r.pool.oneofs u).lookup name = some uf
        ∧ List.Forall₂ (FieldAlike R) of uf := by
  have hlists := h.oneofLists
  generalize w.pool.oneofs o = xs, r.pool.oneofs u = ys at hlists ⊢
  induction hlists with
  | nil => exact .inl ⟨rfl, rfl⟩
  | @cons x y xs ys hxy _ ih =>
    obtain ⟨xn, xf⟩ := x
    obtain ⟨yn, yf⟩ := y
    obtain ⟨rfl, hf⟩ : xn = yn ∧ List.Forall₂ (FieldAlike R) xf yf := hxy
    rw [List.lookup_cons, List.lookup_cons]
    cases name == xn with
    | true => exact .inr ⟨xf, yf, rfl, rfl, hf⟩
    | false => exact ih

theorem numbers : (w.pool.regular o).map (·.number) = (r.pool.regular u).map (·.number) := by
  rw [← List.forall₂_eq_eq_eq, List.forall₂_map_left_iff, List.forall₂_map_right_iff]
  exact h.regular.imp fun a b hab => hab.number

/-- The fields of the reader's oneofs are in oneofs of the writer too. -/
theorem not_moved {x : String × List r.Field} (hx : x ∈ r.pool.oneofs u)
    {f : r.Field} (hf : f ∈ x.2) {a : w.Field}
    (ha : a ∈ w.pool.regular o) : a.number ≠ f.number := by
  intro heq
  have hmem : f.number ∈ (r.pool.regular u).map (·.number) :=
    h.numbers ▸ List.mem_map.mpr ⟨a, ha, heq⟩
  obtain ⟨b, hb, hbf⟩ := List.mem_map.mp hmem
  exact Pool.number_ne_of_regular hb hx hf hbf

/-- No field of the writer has moved. -/
theorem movedFields : movedFields (w := w) (r := r) [] o u = (w.pool.regular o, []) := by
  have hnone := fun x hx f hf a ha => h.not_moved (x := x) hx (f := f) hf (a := a) ha
  unfold Proto.movedFields
  generalize r.pool.oneofs u = xs at hnone ⊢
  induction xs with
  | nil => rfl
  | cons x xs ih =>
    obtain ⟨k, hk⟩ := takeMoved_of_ne
      ((w.pool.oneofs o).flatMap fun x => x.2.map (·.number)) 0 (hnone x List.mem_cons_self)
    rw [List.foldl_cons, compareMoved]
    simp only [hk]
    exact ih fun y hy => hnone y (List.mem_cons_of_mem x hy)

end Alike

section Mirror

variable (hR : Mirror R)

include hR

theorem FieldAlike.mapEntryOf {a : w.Field} {b : r.Field}
    (h : FieldAlike R a b) : Option.Rel R (w.pool.mapEntryOf a) (r.pool.mapEntryOf b) := by
  obtain ⟨-, -, hkind, hlabel, -, -⟩ := h
  unfold Pool.mapEntryOf
  rw [hlabel]
  generalize a.kind = ka at hkind ⊢
  generalize b.kind = kb at hkind ⊢
  cases hkind with
  | scalar s => exact .none
  | enum => exact .none
  | @message m k hmk =>
    dsimp only
    rw [(hR m k hmk).mapEntry]
    split
    · exact .some hmk
    · exact .none

theorem FieldAlike.fieldType {n : Nat} {a : w.Field} {b : r.Field} (h : FieldAlike R a b) :
    Option.Rel (TypeAlike R) (w.pool.fieldType n a) (r.pool.fieldType n b) := by
  induction n generalizing a b with
  | zero => exact .none
  | succ n ih =>
    have part {e : w.Msg} {e' : r.Msg} (he : R e e') (i : UInt32) :
        Option.Rel (TypeAlike R) ((w.pool.entryField e i).bind (w.pool.fieldType n))
          ((r.pool.entryField e' i).bind (r.pool.fieldType n)) := by
      have hfind : Option.Rel (FieldAlike R) (w.pool.entryField e i) (r.pool.entryField e' i) :=
        rel_find? (hR e e' he).fields fun a b hab => by rw [hab.number]
      rcases rel_cases hfind with ⟨hnone, hnone'⟩ | ⟨a, b, ha, hb, hab⟩
      · rw [hnone, hnone']
        exact .none
      · rw [ha, hb]
        exact ih hab
    rw [Pool.fieldType, Pool.fieldType]
    rcases rel_cases (h.mapEntryOf hR) with ⟨hnone, hnone'⟩ | ⟨e, e', he, he', hee⟩
    · rw [hnone, hnone']
      exact .some (.ofKind h.kind)
    · rw [he, he']
      dsimp only
      rcases rel_cases (part hee 1) with ⟨hnone, hnone'⟩ | ⟨k, k', hk, hk', hkey⟩
      · rw [hnone, hnone']
        exact .none
      rcases rel_cases (part hee 2) with ⟨hnone, hnone'⟩ | ⟨v, v', hv, hv', hvalue⟩
      · rw [hnone, hnone', hk, hk']
        exact .none
      rw [hk, hk', hv, hv']
      exact .some (.map hkey hvalue)

theorem Alike.explicitLabel {o : w.Msg} {u : r.Msg} (hou : Alike R o u)
    {a : w.Field} {b : r.Field} (h : FieldAlike R a b) :
    w.pool.explicitLabel o a = r.pool.explicitLabel u b := by
  rw [Pool.explicitLabel, Pool.explicitLabel, hou.oneofOf h, isSome_of_rel (h.mapEntryOf hR),
    hou.dialect,
    h.label, h.proto3Optional]

section Fields

variable {rec : Compare w r} {stack : List String}

theorem TypeAlike.clean {ot : FieldType w.Msg} {ut : FieldType r.Msg} (h : TypeAlike R ot ut)
    (hrec : ∀ m k, ot.Meets ut m k → R m k → Clean (rec stack (w.pool.localPath m) m k))
    {path : List String} {l : Option Label} :
    Clean (compareLabelsAndTypes false rec stack path l l ot ut) := by
  induction h generalizing l with
  | scalar s =>
    exact clean_scalars path l (FieldType.scalarKind (.scalar s : FieldType w.Msg))
  | enum => exact clean_scalars path l .generalNumber
  | @message m k hmk =>
    rw [compareLabelsAndTypes, clean_compareMessageTypes]
    exact ⟨(hR m k hmk).localName, .inr (hrec m k (.message m k) hmk)⟩
  | map _ _ ihk ihv =>
    rw [compareLabelsAndTypes, clean_append]
    exact ⟨ihk fun m k hm => hrec m k (.key hm), ihv fun m k hm => hrec m k (.value hm)⟩

variable {n : Nat} {o : w.Msg} {u : r.Msg} (hou : Alike R o u)
  (hrec : ∀ m k, Leads o u m k → R m k → Clean (rec stack (w.pool.localPath m) m k))
  (hn : ∀ a b, Compared o u a b → (w.pool.fieldType n a).isSome = true)

include hou hrec hn

theorem Alike.field {a : w.Field} {b : r.Field}
    (h : FieldAlike R a b) (hab : Compared o u a b) {path : List String} :
    Clean (compareField false n rec stack path o u a b) := by
  have hsome := hn a b hab
  rw [clean_compareField, hou.explicitLabel hR h]
  rcases rel_cases (h.fieldType hR (n := n)) with ⟨hnone, -⟩ | ⟨ot, ut, hot, hut, htypes⟩
  · rw [hnone] at hsome
    cases hsome
  · refine ⟨ot, ut, hot, hut, htypes.clean hR fun m k hm hmk => hrec m k ?_ hmk⟩
    exact ⟨(hR m k hmk).localName, a, b, ot, ut, hab, Pool.hasType_of_fieldType hot,
      Pool.hasType_of_fieldType hut, hm⟩

/-- Fields of two related lists, by number. -/
theorem Alike.byNumber {of : List w.Field}
    {uf : List r.Field} (h : List.Forall₂ (FieldAlike R) of uf)
    (hcompared : ∀ a ∈ of, ∀ b ∈ uf, a.number = b.number → Compared o u a b) (path : List String)
    {tag : UInt32} :
    of.find? (·.number == tag) = none ∧ uf.find? (·.number == tag) = none
      ∨ ∃ a b, of.find? (·.number == tag) = some a ∧ uf.find? (·.number == tag) = some b
        ∧ Clean (compareField false n rec stack path o u a b) := by
  have hfind := rel_find? (p := (·.number == tag)) (q := (·.number == tag)) h
    fun a b hab => by rw [hab.number]
  refine (rel_cases hfind).imp_right fun ⟨a, b, ha, hb, hab⟩ => ?_
  obtain ⟨hao, hbu, hnumber⟩ := find?_numbers ha hb
  exact ⟨a, b, ha, hb, hou.field hR hrec hn hab (hcompared a hao b hbu hnumber)⟩

theorem Alike.oneofs_clean {path : List String} :
    Clean (compareOneofs false n rec stack path o u) := by
  rw [compareOneofs, clean_collect]
  intro name _
  dsimp only
  rcases hou.oneofByName name with ⟨ha, hb⟩ | ⟨of, uf, hof, huf, hfields⟩
  · rw [ha, hb]
    exact clean_nil
  · rw [hof, huf]
    dsimp only
    rw [compareOneof, clean_collect]
    intro tag _
    dsimp only
    rcases hou.byNumber hR hrec hn hfields (fun a ha b hb hnumber =>
        ⟨hnumber, .inr ⟨name, of, uf, hof, huf, ha, hb⟩⟩) (path ++ [name] ++ [toString tag])
      with ⟨ha, hb⟩ | ⟨a, b, ha, hb, hclean⟩
    · rw [ha, hb]
      exact clean_nil
    · rw [ha, hb]
      exact hclean

theorem Alike.regular_clean {path : List String} :
    Clean (compareRegular false n rec stack path o u (w.pool.regular o)) := by
  rw [compareRegular, clean_collect]
  intro tag _
  dsimp only
  rcases hou.byNumber hR hrec hn hou.regular (fun a ha b hb hnumber => ⟨hnumber, .inl ⟨ha, hb⟩⟩)
    (path ++ [toString tag]) with ⟨ha, hb⟩ | ⟨a, b, ha, hb, hclean⟩
  · rw [ha, hb]
    exact clean_nil
  · rw [ha, hb]
    exact hclean

theorem Alike.body {path : List String} :
    Clean (compareMessageBody false n rec stack path o u) := by
  rw [clean_compareMessageBody, hou.movedFields]
  exact ⟨clean_nil, hou.oneofs_clean hR hrec hn, hou.regular_clean hR hrec hn⟩

end Fields

/-- Nothing incompatible between messages that are declared alike. -/
theorem Mirror.types {rec : Compare w r} {stack path : List String} {os : List w.Msg}
    {us : List r.Msg} (h : List.Forall₂ R os us)
    (hrec : ∀ o u, Paired os us o u → R o u →
      Clean (rec stack (path ++ [(w.pool.message o).name]) o u)) :
    Clean (compareTypes rec stack path os us) := by
  rw [compareTypes, clean_collect]
  intro name _
  dsimp only
  have hzip : ∀ {k : Nat} {os : List w.Msg} {us : List r.Msg},
      List.Forall₂ R os us → List.Forall₂ (fun p q => R p.1 q.1) (os.zipIdx k) (us.zipIdx k) := by
    intro k os us h
    induction h generalizing k with
    | nil => exact .nil
    | cons hab _ ih => exact .cons hab ih
  have hfind := rel_find? (p := fun p => (w.pool.message p.1).name == name)
    (q := fun p => (r.pool.message p.1).name == name) (hzip (k := 0) h)
    fun a b hab => by rw [(hR a.1 b.1 hab).name]
  rcases rel_cases hfind with ⟨ho, hu⟩ | ⟨⟨o, i⟩, ⟨u, j⟩, ho, hu, hou⟩
  · rw [ho, hu]
    exact clean_nil
  · rw [ho, hu]
    dsimp only
    rw [clean_moved]
    obtain ⟨hpaired, rfl⟩ := paired_of_find ho hu
    exact hrec o u hpaired hou

theorem Mirror.named {os : List w.Msg} {us : List r.Msg}
    (h : List.Forall₂ R os us) : List.Forall₂ R (w.pool.named os) (r.pool.named us) :=
  List.rel_filter (fun a b hab => by simp [(hR a b hab).mapEntry]) h

theorem Mirror.passes (hends : FieldsEnd false w r) {stack : List String} {o : w.Msg}
    {u : r.Msg} (hmet : Met false stack o u) (h : R o u) (path : List String) :
    Passes false stack path o u := by
  refine Pool.stack_induction (motive := fun stack o => ∀ {path u}, Met false stack o u → R o u →
    Passes false stack path o u) ?_ stack o hmet h
  intro stack o ihfields ihnested path u hmet h
  have hou := hR o u h
  have hnested : ∀ᶠ n in atTop, ∀ (c : w.Msg) (d : r.Msg),
      Paired (w.pool.named (w.pool.message o).children)
        (r.pool.named (r.pool.message u).children) c d →
      R c d → Clean (compareMessage false n stack (path ++ [(w.pool.message c).name]) c d) := by
    refine eventually_all.mpr fun c => eventually_all.mpr fun d => ?_
    by_cases hcd : Paired (w.pool.named (w.pool.message o).children)
      (r.pool.named (r.pool.message u).children) c d ∧ R c d
    · filter_upwards [ihnested c (List.mem_of_mem_filter hcd.1.1) (hmet.nested hcd.1) hcd.2]
        with n hn _ _ using hn
    · exact Eventually.of_forall fun n hpaired hrel => absurd ⟨hpaired, hrel⟩ hcd
  refine eventually_of_succ ?_
  by_cases hmem : (w.pool.message o).fullName ∈ stack
  · filter_upwards [hnested] with n hn
    exact clean_compareMessage_succ.mpr
      ⟨.inl hmem, Mirror.types hR (Mirror.named hR hou.children) hn⟩
  · have hfieldTypes : ∀ᶠ n in atTop, ∀ a ∈ {a | ∃ b, Compared o u a b},
        (w.pool.fieldType n a).isSome = true := by
      have hfinite : {a | ∃ b, Compared o u a b}.Finite :=
        (List.finite_toSet (w.pool.message o).fields).subset fun a ⟨b, hab⟩ => hab.mem.1
      refine (eventually_all_finite hfinite).mpr fun a ⟨b, hab⟩ => ?_
      obtain ⟨⟨t, ht⟩, -⟩ := hends stack o u hmet hmem a b hab
      obtain ⟨k, hk⟩ := ht.settles
      exact eventually_atTop.mpr ⟨k, fun n hn => Option.isSome_iff_exists.mpr ⟨t, hk n hn⟩⟩
    have hfields : ∀ᶠ n in atTop, ∀ (m : w.Msg) (k : r.Msg), Leads o u m k → R m k →
        Clean (compareMessage false n (stack ++ [(w.pool.message o).fullName])
          (w.pool.localPath m) m k) := by
      refine eventually_all.mpr fun m => eventually_all.mpr fun k => ?_
      by_cases hmk : Leads o u m k ∧ R m k
      · filter_upwards [ihfields hmem m (.field hmet hmem hmk.1 rfl) hmk.2] with n hn _ _ using hn
      · exact Eventually.of_forall fun n hleads hrel => absurd ⟨hleads, hrel⟩ hmk
    filter_upwards [hnested, hfields, hfieldTypes] with n hn hcalls hsome
    exact clean_compareMessage_succ.mpr ⟨.inr (hou.body hR hcalls fun a b hab => hsome a ⟨b, hab⟩),
      Mirror.types hR (Mirror.named hR hou.children) hn⟩

end Mirror

end Alike

/-! ### The schema's own messages -/

/-- A message that the walk over the schema's own file comes to, with its name without the package:
neither it nor one around it is a map entry. -/
inductive Walked (s : ProtoSchema) : String → s.Msg → Prop
  | outermost {rf : RootFile s.Msg} {m : s.Msg} (hrf : s.root = some rf)
      (h : m ∈ s.pool.named rf.messages) : Walked s (s.pool.message m).name m
  | nested {name : String} {p c : s.Msg} (h : Walked s name p)
      (hc : c ∈ s.pool.named (s.pool.message p).children) :
      Walked s (name ++ "." ++ (s.pool.message c).name) c

theorem Walked.fullName {s : ProtoSchema} {name : String} {m : s.Msg} (h : Walked s name m) :
    (s.pool.message m).fullName = qualify (s.pool.message m).file.package name := by
  induction h with
  | outermost hrf hmem =>
    obtain ⟨-, hpackage, hfull⟩ := s.outermost _ hrf _ (List.mem_of_mem_filter hmem)
    rw [hpackage, hfull]
  | @nested name p c _ hc ih =>
    obtain ⟨hfile, hfull⟩ := s.pool.inside p c (List.mem_of_mem_filter hc)
    rw [hfull, ih, hfile]
    unfold qualify
    split
    · rfl
    · simp only [String.append_assoc]

theorem Walked.localName {s : ProtoSchema} {name : String} {m : s.Msg} (h : Walked s name m) :
    s.pool.localName m = name := by
  rw [Pool.localName, h.fullName]
  unfold qualify
  by_cases hempty : (s.pool.message m).file.package = ""
  · simp [hempty]
  · simp [hempty, String.toList_append]

section Walk

variable {w r : ProtoSchema}

/-- Two messages of one level that go by the same name. -/
theorem Clean.at_name {rec : Compare w r} {stack path : List String} {os : List w.Msg}
    {us : List r.Msg} {o : w.Msg} {u : r.Msg}
    (h : Clean (compareTypes rec stack path os us)) (hos : w.pool.Level os) (hus : r.pool.Level us)
    (hou : Paired os us o u) : Clean (rec stack (path ++ [(w.pool.message o).name]) o u) := by
  obtain ⟨ho, hu, hname⟩ := hou
  obtain ⟨i, hi⟩ := hos.find? ho
  obtain ⟨j, hj⟩ := hus.find? hu
  rw [compareTypes, clean_collect] at h
  have hclean := h (w.pool.message o).name
    (mem_unionOrder.mpr (.inl (List.mem_map.mpr ⟨o, ho, rfl⟩)))
  rw [← hname] at hj
  simp only [hi, hj] at hclean
  exact clean_moved.mp hclean

theorem clean_compareSchemas {s : Bool} {n : Nat} {wf : RootFile w.Msg}
    {rf : RootFile r.Msg} (hwf : w.root = some wf) (hrf : r.root = some rf) :
    Clean (compareSchemas s n w r) ↔ wf.package = rf.package
      ∧ Clean (compareTypes (compareMessage s n) [] [] (w.pool.named wf.messages)
        (r.pool.named rf.messages)) := by
  rw [compareSchemas, hwf, hrf]
  dsimp only
  cases compareTypes (compareMessage s n) [] [] (w.pool.named wf.messages)
      (r.pool.named rf.messages) with
  | none => simp
  | some types =>
      by_cases hpackage : wf.package = rf.package
      · simp [hpackage]
      · simp [hpackage, clean_some, DiffKind.compatible]

/-- The last part of a dotted name has no dot, so the name says where it starts. -/
theorem append_dot_inj {a a' b b' : String} (hb : '.' ∉ b.toList) (hb' : '.' ∉ b'.toList)
    (h : a ++ "." ++ b = a' ++ "." ++ b') : a = a' ∧ b = b' := by
  have hlists := congrArg String.toList h
  simp only [String.toList_append] at hlists
  exact (sep_append_inj hb hb' hlists).imp String.toList_inj.mp String.toList_inj.mp

/-- The walk over what the two files declare comes to every two messages that have the same name. -/
theorem met_of_walked {s : Bool} {name name' : String} {o : w.Msg} {u : r.Msg}
    (ho : Walked w name o) (hu : Walked r name' u) (hname : name = name')
    (hclean : ∀ᶠ n in atTop, Clean (compareSchemas s n w r)) :
    ∃ path, Met s [] o u ∧ Passes s [] path o u := by
  induction ho generalizing name' u with
  | @outermost wf o hwf hmem =>
    cases hu with
    | @outermost rf _ hrf hmem' =>
      have hou : Paired _ _ o u := ⟨hmem, hmem', hname⟩
      refine ⟨[] ++ [(w.pool.message o).name], .outermost hwf hrf hou, hclean.mono fun n hn => ?_⟩
      exact ((clean_compareSchemas hwf hrf).mp hn).2.at_name (level_outermost hwf)
        (level_outermost hrf) hou
    | @nested name' p _ _ _ =>
      have hdot := w.pool.simple o
      rw [hname] at hdot
      simp at hdot
  | @nested name p c hp hc ih =>
    cases hu with
    | outermost _ _ =>
      have hdot := r.pool.simple u
      rw [← hname] at hdot
      simp at hdot
    | @nested name' p' _ hp' hc' =>
      obtain ⟨hparent, hlast⟩ := append_dot_inj (w.pool.simple c) (r.pool.simple u) hname
      obtain ⟨path, hmet, hpath⟩ := ih hp' hparent
      have hou : Paired _ _ c u := ⟨hc, hc', hlast⟩
      refine ⟨path ++ [(w.pool.message c).name], hmet.nested hou, ?_⟩
      filter_upwards [(tendsto_add_atTop_nat 1).eventually hpath] with n hn
      exact (clean_compareMessage_succ.mp hn).2.at_name Pool.level_children Pool.level_children hou

/-! ### With and without the shortcut -/

/-- The comparison comes to an end and reports an incompatibility. -/
def Reports (shortcut : Bool) (w r : ProtoSchema) : Prop :=
  ∃ diffs, Settles (fun n => compareSchemas shortcut n w r) diffs ∧
    ∃ d ∈ diffs, d.incompatible = true

/-- Two types of fields that are compared, which the shortcut skips. -/
def Skipped (w r : ProtoSchema) (om : w.Msg) (um : r.Msg) : Prop :=
  sameOrigin w r om um = true ∧ ∃ stack o u, Met true stack o u ∧
    (w.pool.message o).fullName ∉ stack
    ∧ Leads o u om um

/-- Types that the shortcut skips are declared alike, and so are all the types they use, or the walk
over the schema's own file comes to them. -/
def SkippedAlike (w r : ProtoSchema) : Prop :=
  ∃ R : w.Msg → r.Msg → Prop, Mirror R ∧ ∀ om um, Skipped w r om um →
    R om um ∨ (∃ name, Walked w name om) ∧ ∃ name, Walked r name um

theorem reports_iff {s : Bool} (hends : FieldsEnd s w r) :
    Reports s w r ↔ ¬ ∀ᶠ n in atTop, Clean (compareSchemas s n w r) := by
  obtain ⟨diffs, k, hk⟩ := halts_compareSchemas hends
  have heq : ∀ᶠ n in atTop, compareSchemas s n w r = some diffs := eventually_atTop.mpr ⟨k, hk⟩
  have hclean : (∀ᶠ n in atTop, Clean (compareSchemas s n w r)) ↔ Clean (some diffs) := by
    refine ⟨fun h => ?_, fun h => heq.mono fun n hn => hn ▸ h⟩
    obtain ⟨n, hn, hn'⟩ := (h.and heq).exists
    exact hn' ▸ hn
  rw [hclean, clean_some]
  push Not
  constructor
  · rintro ⟨diffs', ⟨k', hk'⟩, d, hd, hinc⟩
    have hsame : some diffs' = some diffs :=
      (hk' (max k k') (le_max_right _ _)).symm.trans (hk (max k k') (le_max_left _ _))
    cases hsame
    exact ⟨d, hd, by simp [hinc]⟩
  · rintro ⟨d, hd, hinc⟩
    exact ⟨diffs, ⟨k, hk⟩, d, hd, by simpa using hinc⟩

theorem Met.unskipped {stack : List String} {o : w.Msg} {u : r.Msg}
    (h : Met true stack o u) : Met false stack o u := by
  induction h with
  | outermost hwf hrf hou => exact .outermost hwf hrf hou
  | nested _ hcd ih => exact ih.nested hcd
  | field _ hnew hleads _ ih => exact ih.field hnew hleads rfl

theorem clean_transfer {s₁ s₂ : Bool} (hends : FieldsEnd s₁ w r)
    (hskip : ∀ {stack₁ stack₂ o u om um}, Met s₁ stack₁ o u → (w.pool.message o).fullName ∉ stack₁ →
      Leads o u om um → (s₁ && sameOrigin w r om um) = true → Met s₂ stack₂ om um →
      (∃ path, Met s₁ [] om um ∧ Passes s₁ [] path om um) ∨ ∀ path, Passes s₂ stack₂ path om um)
    (h : ∀ᶠ n in atTop, Clean (compareSchemas s₁ n w r)) :
    ∀ᶠ n in atTop, Clean (compareSchemas s₂ n w r) := by
  cases hwf : w.root with
  | none => simp [compareSchemas, hwf]
  | some wf =>
  cases hrf : r.root with
  | none => simp [compareSchemas, hwf, hrf]
  | some rf =>
  have hcalls : ∀ᶠ n in atTop, ∀ (o : w.Msg) (u : r.Msg),
      Paired (w.pool.named wf.messages) (r.pool.named rf.messages) o u →
      Clean (compareMessage s₁ n [] ([] ++ [(w.pool.message o).name]) o u) →
      Clean (compareMessage s₂ n [] ([] ++ [(w.pool.message o).name]) o u) := by
    refine eventually_all.mpr fun o => eventually_all.mpr fun u => ?_
    by_cases hou : Paired (w.pool.named wf.messages) (r.pool.named rf.messages) o u
    · have hmet : Met s₁ [] o u := .outermost hwf hrf hou
      filter_upwards [eventually_imp_of_halts (halts_compareMessage hends hmet _)
        (Passes.transfer hends hskip hmet (.outermost hwf hrf hou) (List.Subset.refl []))]
        with n hn _ using hn
    · exact Eventually.of_forall fun n h => absurd h hou
  filter_upwards [h, hcalls] with n hn hrec
  rw [clean_compareSchemas hwf hrf] at hn ⊢
  exact ⟨hn.1, hn.2.types hrec⟩

/-- The shortcut changes nothing about the verdict where the types it skips are alike. -/
theorem shortcut_agrees (w r : ProtoSchema) (hends : FieldsEnd false w r)
    (halike : SkippedAlike w r) :
    Reports true w r ↔ Reports false w r := by
  have hends' : FieldsEnd true w r := fun stack o u hmet => hends stack o u hmet.unskipped
  rw [reports_iff hends', reports_iff hends, not_iff_not]
  refine ⟨fun h => ?_, clean_transfer hends fun _ _ _ hfirst => absurd hfirst (by simp)⟩
  obtain ⟨R, hR, hall⟩ := halike
  refine clean_transfer hends' (fun hmet hnew hleads hsame hmet' => ?_) h
  rcases hall _ _
    ⟨by simpa using hsame, _, _, _, hmet, hnew, hleads⟩ with hrel | ⟨⟨name, hw⟩, name', hr⟩
  · exact .inr (Mirror.passes hR hends hmet' hrel)
  · refine .inl (met_of_walked hw hr ?_ h)
    rw [← hw.localName, hleads.1, hr.localName]

end Walk

/-! ### A change behind an import -/

/-- Messages with one field each and nothing else. -/
theorem clean_single {w r : ProtoSchema} {s : Bool} {n : Nat} {stack path : List String}
    {o : w.Msg} {u : r.Msg} {a : w.Field}
    {b : r.Field} (ha : (w.pool.message o).fields = [a])
    (hb : (r.pool.message u).fields = [b]) (hnumber : a.number = b.number)
    (ho : (w.pool.message o).oneofs = []) (hu : (r.pool.message u).oneofs = [])
    (hoc : (w.pool.message o).children = []) (huc : (r.pool.message u).children = [])
    (hnew : (w.pool.message o).fullName ∉ stack) :
    Clean (compareMessage s (n + 1) stack path o u) ↔
      Clean (compareField s n (compareMessage s n) (stack ++ [(w.pool.message o).fullName])
        (path ++ [toString b.number]) o u a b) := by
  have hnone {p : Pool} {m : p.Msg} (h : (p.message m).oneofs = []) : p.oneofs m = [] := by
    simp [Pool.oneofs, h]
  have hregular {p : Pool} {m : p.Msg} {f : p.Field}
      (h : (p.message m).oneofs = []) (hf : (p.message m).fields = [f]) : p.regular m = [f] := by
    simp [Pool.regular, hf, Pool.oneofOf, h]
  rw [clean_compareMessage_succ, clean_compareMessageBody]
  simp only [hnew, false_or, hoc, huc]
  have htypes : Clean (compareTypes (compareMessage s n) stack path (w.pool.named [])
      (r.pool.named [])) := by
    rw [compareTypes, clean_collect]
    intro name hname
    simp [Pool.named, mem_unionOrder] at hname
  have hmoved : movedFields (w := w) (r := r) [] o u = ([a], []) := by
    simp [movedFields, hnone hu, hregular ho ha]
  have honeofs : Clean (compareOneofs s n (compareMessage s n)
      (stack ++ [(w.pool.message o).fullName]) path o u) := by
    rw [compareOneofs, clean_collect]
    intro name hname
    simp [hnone ho, hnone hu, mem_unionOrder] at hname
  rw [hmoved]
  simp only [htypes, and_true, clean_nil, honeofs, true_and]
  rw [compareRegular, clean_collect]
  constructor
  · intro h
    have hclean := h b.number (by
      simp [JavaSet.ordered, mem_byBucket, JavaSet.mem_keys_extend, mem_mapOrder, hregular hu hb])
    simpa [hnumber, hregular hu hb] using hclean
  · intro h tag htag
    obtain rfl : tag = b.number := by
      simp [JavaSet.ordered, mem_byBucket, JavaSet.fromCollection, JavaSet.mem_keys_extend,
        mem_mapOrder, hregular ho ha, hregular hu hb, hnumber] at htag
      rcases htag with ⟨rfl, -⟩ | rfl <;> rfl
    simpa [hnumber, hregular hu hb] using h

/-- Two files with one message each, of one name. -/
theorem clean_lone {w r : ProtoSchema} {s : Bool} {n : Nat} {package : String} {o : w.Msg}
    {u : r.Msg} (hw : w.root = some ⟨package, [o]⟩) (hr : r.root = some ⟨package, [u]⟩)
    (hname : (w.pool.message o).name = (r.pool.message u).name)
    (ho : (w.pool.message o).mapEntry = false) (hu : (r.pool.message u).mapEntry = false) :
    Clean (compareSchemas s n w r) ↔
      Clean (compareMessage s n [] [(w.pool.message o).name] o u) := by
  have hon : w.pool.named [o] = [o] := by simp [Pool.named, ho]
  have hun : r.pool.named [u] = [u] := by simp [Pool.named, hu]
  rw [clean_compareSchemas hw hr]
  refine ⟨fun h => ?_, fun h => ⟨rfl, ?_⟩⟩
  · exact h.2.at_name (level_outermost hw) (level_outermost hr)
      ⟨by simp [hon], by simp [hun], hname⟩
  · rw [compareTypes, clean_collect]
    intro name hmem
    obtain rfl : (w.pool.message o).name = name := by
      simpa [hon, hun, mem_unionOrder, ← hname, eq_comm] using hmem
    simpa [hon, hun, ← hname] using h

def optionalField (name : String) (number : UInt32) (kind : Kind (Fin 3)) : FieldInfo (Fin 3) :=
  ⟨name, number, kind, .optional, false, none⟩

/-- `message M { a.A x = 1; … }` with `message A { b.B y = 1; }` in `a.proto` and
`message B { … z = 1; }` in `b.proto`. -/
def importMessages (own : List (FieldInfo (Fin 3))) (z : Scalar) : Fin 3 → MessageInfo (Fin 3) :=
  ![⟨"M", "m.M", ⟨rootFile, "m", .proto3⟩, false, optionalField "x" 1 (.message 1) :: own, [], []⟩,
    ⟨"A", "a.A", ⟨"a.proto", "a", .proto3⟩, false, [optionalField "y" 1 (.message 2)], [], []⟩,
    ⟨"B", "b.B", ⟨"b.proto", "b", .proto3⟩, false, [optionalField "z" 1 (.scalar z)], [], []⟩]

abbrev importPool (own : List (FieldInfo (Fin 3))) (z : Scalar)
    (h : ((optionalField "x" 1 (.message 1) :: own).map (·.number)).Nodup) : Pool where
  size := 3
  message := importMessages own z
  nesting := by simp [Fin.forall_fin_succ, importMessages]
  inside := by simp [Fin.forall_fin_succ, importMessages]
  simple := by simp [Fin.forall_fin_succ, importMessages]
  distinct := by simp [Fin.forall_fin_succ, importMessages]
  numbers := by simpa [Fin.forall_fin_succ, importMessages] using h

abbrev importSchema (own : List (FieldInfo (Fin 3))) (z : Scalar) (b : String)
    (h : ((optionalField "x" 1 (.message 1) :: own).map (·.number)).Nodup) : ProtoSchema where
  pool := importPool own z h
  root := some ⟨"m", [(0 : Fin 3)]⟩
  deps := [("a.proto",
    "syntax = \"proto3\"; package a; import \"b.proto\"; message A \x7b b.B y = 1; \x7d"),
    ("b.proto", b)]
  outermost := by simp [importMessages, qualify]

theorem importSchema_noEntries (own : List (FieldInfo (Fin 3))) (z : Scalar) (b : String)
    (h : ((optionalField "x" 1 (.message 1) :: own).map (·.number)).Nodup) :
    ∀ e, ((importSchema own z b h).pool.message e).mapEntry = false := by
  change ∀ e : Fin 3, _
  simp [Fin.forall_fin_succ, importMessages]

theorem fieldsEnd_of_noEntries {s : Bool} {w r : ProtoSchema}
    (hw : ∀ e, (w.pool.message e).mapEntry = false)
    (hr : ∀ e, (r.pool.message e).mapEntry = false) :
    FieldsEnd s w r :=
  fieldsEnd_of_forall (fun _ f _ => ⟨_, Pool.hasType_of_noEntries hw f⟩)
    fun _ f _ => ⟨_, Pool.hasType_of_noEntries hr f⟩

def bText (z : String) : String :=
  "syntax = \"proto3\"; package b; message B \x7b " ++ z ++ " z = 1; \x7d"

abbrev imports : ProtoSchema := importSchema [] .int32 (bText "int32") (by simp)

abbrev importsMore : ProtoSchema :=
  importSchema [optionalField "t" 2 (.scalar .bool)] .int32 (bText "int32") (by decide)

theorem imports_alike : SkippedAlike imports importsMore := by
  refine ⟨fun (o u : Fin 3) => o ≠ 0 ∧ o = u, ?_, ?_⟩
  · rintro (o : Fin 3) (u : Fin 3) ⟨ho, rfl⟩
    fin_cases o
    · exact absurd rfl ho
    · refine ⟨rfl, by decide, rfl, rfl, ?_, rfl, .nil⟩
      exact .cons ⟨rfl, rfl, .message ⟨by decide, rfl⟩, rfl, rfl, rfl⟩ .nil
    · refine ⟨rfl, by decide, rfl, rfl, ?_, rfl, .nil⟩
      exact .cons ⟨rfl, rfl, .scalar .int32, rfl, rfl, rfl⟩ .nil
  · rintro (om : Fin 3) (um : Fin 3) ⟨-, _, _, _, -, -, hleads⟩
    obtain rfl : om = um := by
      have hname := hleads.1
      revert hname
      fin_cases om <;> fin_cases um <;> decide
    by_cases hzero : om = 0
    · subst hzero
      exact .inr ⟨⟨_, .outermost rfl (List.mem_singleton_self _)⟩,
        _, .outermost rfl (List.mem_singleton_self _)⟩
    · exact .inl ⟨hzero, rfl⟩

theorem shortcut_agrees_imports :
    Reports true imports importsMore ↔ Reports false imports importsMore :=
  shortcut_agrees imports importsMore
    (fieldsEnd_of_noEntries (importSchema_noEntries _ _ _ _) (importSchema_noEntries _ _ _ _))
    imports_alike

abbrev importsChanged : ProtoSchema := importSchema [] .string (bText "string") (by simp)

theorem shortcut_imports :
    ¬ (Reports true imports importsChanged ↔ Reports false imports importsChanged) := by
  have hends (s : Bool) : FieldsEnd s imports importsChanged :=
    fieldsEnd_of_noEntries (importSchema_noEntries _ _ _ _) (importSchema_noEntries _ _ _ _)
  have hlone {s : Bool} {n : Nat} : Clean (compareSchemas s n imports importsChanged) ↔
      Clean (compareMessage (w := imports) (r := importsChanged) s n [] ["M"] (0 : Fin 3)
        (0 : Fin 3)) :=
    clean_lone (w := imports) (r := importsChanged) (o := (0 : Fin 3)) (u := (0 : Fin 3))
      rfl rfl rfl rfl rfl
  have hsingle {s : Bool} {n : Nat} {stack path : List String} {o : Fin 3} {name : String}
      {k k' : Kind (Fin 3)} (ho : (importMessages [] .int32 o).fields = [optionalField name 1 k])
      (hu : (importMessages [] .string o).fields = [optionalField name 1 k'])
      (hnew : (importMessages [] .int32 o).fullName ∉ stack) :
      Clean (compareMessage (w := imports) (r := importsChanged) s (n + 1) stack path o o) ↔
      Clean (compareField (w := imports) (r := importsChanged) s n (compareMessage s n)
        (stack ++ [(importMessages [] .int32 o).fullName]) (path ++ [toString (1 : UInt32)]) o o
        (optionalField name 1 k) (optionalField name 1 k')) := by
    refine clean_single (w := imports) (r := importsChanged) (o := o) (u := o) ho hu rfl ?_
      ?_ ?_ ?_ hnew
    all_goals fin_cases o <;> rfl
  have hshort : ¬ Reports true imports importsChanged := by
    rw [reports_iff (hends true), not_not]
    refine eventually_of_succ (eventually_of_succ (Eventually.of_forall fun n => ?_))
    rw [hlone, hsingle rfl rfl (by simp), clean_compareField]
    refine ⟨_, _, rfl, rfl, clean_compareMessageTypes.mpr ⟨by decide, .inl ?_⟩⟩
    decide
  have hfull : Reports false imports importsChanged := by
    rw [reports_iff (hends false)]
    intro h
    obtain ⟨n, hn⟩ := eventually_atTop.mp h
    replace hn := hn (n + 5) (by omega)
    rw [hlone, hsingle rfl rfl (by simp), clean_compareField] at hn
    obtain ⟨_, _, hot, hut, hA⟩ := hn
    cases hot
    cases hut
    replace hA := (clean_compareMessageTypes.mp hA).2.resolve_left (by simp)
    rw [hsingle rfl rfl (by simp [importMessages]), clean_compareField] at hA
    obtain ⟨_, _, hot, hut, hB⟩ := hA
    cases hot
    cases hut
    replace hB := (clean_compareMessageTypes.mp hB).2.resolve_left (by simp)
    rw [hsingle rfl rfl (by simp [importMessages]), clean_compareField] at hB
    obtain ⟨_, _, hot, hut, hz⟩ := hB
    cases hot
    cases hut
    change Clean (some (compareScalars _ _ _ .generalNumber .stringOrBytes)) at hz
    simp [compareScalars, DiffKind.compatible] at hz
  exact fun h => hshort (h.mpr hfull)

end SchemaRegistry.Proto
