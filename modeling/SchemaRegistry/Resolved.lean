import SchemaRegistry.Lib.PostOrder
import SchemaRegistry.Ordinary

/-!
What reference resolution lists. The versions a request leads to are walked depth first, each
is listed once, after all it references, under the name by which the walk came to it. A version
that is referenced under a second name is not listed again, and a parser that looks for what it
imports by name does not find it under that one.
-/

namespace SchemaRegistry

open Lib Relation

/-! ### The graph with its names -/

/-- Context, subject and number of a version. -/
abbrev VersionKey := String × String × UInt32

def refKey (ctx : String) (sr : SchemaReference) : VersionKey :=
  ((refTarget ctx sr).context, (refTarget ctx sr).subject, sr.target)

namespace Reader

/-- The content of a version. -/
def recordAt (r : Reader) (a : VersionKey) : Option SchemaRecord :=
  (r.getVersion a.1 a.2.1 a.2.2).bind fun vr => r.getSchema a.1 vr.id

/-- The references of a version: a name, and the version it stands for. -/
def edges (r : Reader) (a : VersionKey) : List (String × VersionKey) :=
  ((r.recordAt a).map fun rec => rec.references.map fun sr => (sr.name, refKey a.1 sr)).getD []

def Leads (r : Reader) (a b : VersionKey) : Prop := ∃ name, (name, b) ∈ r.edges a

/-- An edge of a list, or one that is reached from it. -/
def EdgeFrom (r : Reader) (start : List (String × VersionKey)) (e : String × VersionKey) : Prop :=
  e ∈ start ∨ ∃ x ∈ start, ∃ a, ReflTransGen r.Leads x.2 a ∧ e ∈ r.edges a

/-- All that is reached is there, in chains of fewer versions than `levels`. -/
def Within (r : Reader) (levels : Nat) (a : VersionKey) : Prop :=
  WithinSteps r.Leads (fun _ => False) (fun a => (r.recordAt a).isSome = true) levels a

/-- What a version is listed as. -/
def entryOf (r : Reader) (e : String × VersionKey) : Option ResolvedRef :=
  (r.recordAt e.2).map fun rec => ⟨e.1, rec.schema⟩

end Reader

/-- A resolved list read as entries of versions: every edge has an entry with its own name and
the text of the version it stands for, and every entry comes after those of the versions it
references. -/
structure ListsAll (r : Reader) (edge : String × VersionKey → Prop) (out : List ResolvedRef)
    (es : List (String × VersionKey)) : Prop where
  entries : out.map some = es.map r.entryOf
  complete : ∀ e, edge e → e ∈ es
  ordered : ∀ before e after, es = before ++ e :: after → ∀ b, r.Leads e.2 b →
    b ∈ before.map Prod.snd

/-- What a request reference names: every member is there and the version is stored. -/
def Selects (r : Reader) (ctx : String) (rin : RefIn) (f : ResolvedReference) : Prop :=
  ∃ name subject version spec vr, rin = ⟨false, some name, some subject, some version⟩
    ∧ f.concrete = ⟨name, subject, f.target.2.toInt32⟩
    ∧ f.target.1 = refTarget ctx ⟨name, subject, version⟩
    ∧ referenceSpec version = .ok spec ∧ getExact r f.target.1 spec true = some (f.target.2, vr)

/-- The edge a resolved request reference stands for. -/
def ResolvedReference.edge (f : ResolvedReference) : String × VersionKey :=
  (f.concrete.name, f.target.1.context, f.target.1.subject, f.target.2)

/-! ### What the walk has done -/

section Walk

variable {r : Reader} {under : List VersionKey} {acc acc' : Collected}
  {es es' : List (String × VersionKey)}

theorem Reader.EdgeFrom.mono {start start' : List (String × VersionKey)} {e : String × VersionKey}
    (h : r.EdgeFrom start e) (hsub : start ⊆ start') : r.EdgeFrom start' e := by
  rcases h with h | ⟨x, hx, hreach⟩
  · exact .inl (hsub h)
  · exact .inr ⟨x, hsub hx, hreach⟩

/-- The edges of a version are reached from any edge that leads to it. -/
theorem Reader.EdgeFrom.of_edges {e x : String × VersionKey} (h : r.EdgeFrom (r.edges x.2) e) :
    r.EdgeFrom [x] e := by
  refine .inr ⟨x, List.mem_singleton_self x, ?_⟩
  rcases h with h | ⟨y, hy, a, hreach, ha⟩
  · exact ⟨x.2, .refl, h⟩
  · exact ⟨a, .head ⟨y.1, hy⟩ hreach, ha⟩

/-- The walk is under way, and what it has finished is listed, here newest first. -/
structure Gathered (r : Reader) (under : List VersionKey) (acc : Collected)
    (es : List (String × VersionKey)) : Prop where
  walking : Walking r.Leads acc.visited under (es.map Prod.snd)
  entries : acc.out.map some = es.reverse.map r.entryOf

/-- What collecting some edges adds. -/
structure Gathers (r : Reader) (under : List VersionKey) (start es es' : List (String × VersionKey))
    (acc' : Collected) : Prop extends Gathered r under acc' es' where
  old : es ⊆ es'
  reached : ∀ x ∈ start, x.2 ∈ es'.map Prod.snd
  source : ∀ e ∈ es', e ∈ es ∨ r.EdgeFrom start e

/-- Collect edges one after another. -/
def collectEdges (r : Reader) (levels : Nat) (acc : Collected)
    (start : List (String × VersionKey)) : ApiResult Collected :=
  start.foldlM (fun acc x => collectRef r levels x.1 ⟨x.2.1, x.2.2.1⟩ x.2.2.2 acc) acc

theorem collectEdges_gathers {levels : Nat} {start : List (String × VersionKey)}
    (hstep : ∀ x ∈ start, ∀ acc es, Gathered r under acc es → ∃ acc' es',
      collectRef r levels x.1 ⟨x.2.1, x.2.2.1⟩ x.2.2.2 acc = .ok acc'
        ∧ Gathers r under [x] es es' acc') (h : Gathered r under acc es) :
    ∃ acc' es', collectEdges r levels acc start = .ok acc' ∧ Gathers r under start es es' acc' := by
  induction start generalizing acc es with
  | nil => exact ⟨acc, es, rfl, h, List.Subset.refl _, by simp, fun e he => .inl he⟩
  | cons x start ih =>
    obtain ⟨acc₁, es₁, hone, hfirst⟩ := hstep x List.mem_cons_self acc es h
    obtain ⟨acc₂, es₂, hmore, hrest⟩ :=
      ih (fun y hy => hstep y (List.mem_cons_of_mem x hy)) hfirst.toGathered
    refine ⟨acc₂, es₂, ?_, hrest.toGathered, List.Subset.trans hfirst.old hrest.old, ?_, ?_⟩
    · rw [collectEdges, List.foldlM_cons, hone]
      exact hmore
    · intro y hy
      rcases List.mem_cons.mp hy with rfl | hy
      · exact List.map_subset _ hrest.old (hfirst.reached y (List.mem_singleton_self y))
      · exact hrest.reached y hy
    · intro e he
      rcases hrest.source e he with he | he
      · exact (hfirst.source e he).imp id fun he => he.mono (by simp)
      · exact .inr (he.mono (List.subset_cons_self x start))

theorem edges_of_recordAt {a : VersionKey} {rec : SchemaRecord} (h : r.recordAt a = some rec) :
    r.edges a = rec.references.map fun sr => (sr.name, refKey a.1 sr) := by
  rw [Reader.edges, h]
  rfl

/-- A version that was not seen and is there: its references first, then itself. -/
theorem collectRef_of_recordAt {levels : Nat} {name : String} {a : VersionKey} {rec : SchemaRecord}
    (hseen : a ∉ acc.visited) (hrec : r.recordAt a = some rec) :
    collectRef r (levels + 1) name ⟨a.1, a.2.1⟩ a.2.2 acc
      = (collectEdges r levels { acc with visited := a :: acc.visited } (r.edges a)).map
        fun acc => { acc with out := acc.out ++ [⟨name, rec.schema⟩] } := by
  obtain ⟨vr, hrow, hbody⟩ := Option.bind_eq_some_iff.mp hrec
  rw [collectRef, if_neg hseen]
  simp only [hrow, hbody]
  rw [edges_of_recordAt hrec, collectEdges, List.foldlM_map]
  rfl

/-- The walk down from a version that is there with all it leads to. -/
theorem collectRef_gathers {levels : Nat} {name : String} {a : VersionKey}
    (hwithin : r.Within levels a) (hunder : ∀ u ∈ under, TransGen r.Leads u a)
    (h : Gathered r under acc es) :
    ∃ acc' es', collectRef r levels name ⟨a.1, a.2.1⟩ a.2.2 acc = .ok acc'
      ∧ Gathers r under [(name, a)] es es' acc' := by
  induction levels generalizing name a under acc es with
  | zero => exact hwithin.elim
  | succ levels ih =>
    by_cases hseen : a ∈ acc.visited
    · have hdone := h.walking.done_of_seen hwithin (by simp) (by simp) hunder hseen
      refine ⟨acc, es, if_pos hseen, h, List.Subset.refl _, ?_, fun e he => .inl he⟩
      intro x hx
      rwa [List.mem_singleton.mp hx]
    · have hnot := h.walking.not_under hwithin (by simp) (by simp) hunder
      obtain ⟨hthere, hnext⟩ := hwithin.resolve_left id
      obtain ⟨rec, hrec⟩ := Option.isSome_iff_exists.mp hthere
      have hentered : Gathered r (a :: under) { acc with visited := a :: acc.visited } es :=
        ⟨h.walking.enter hseen, h.entries⟩
      -- Below `a`, all that is under way leads to what comes next.
      have hstep : ∀ x ∈ r.edges a, ∀ acc es, Gathered r (a :: under) acc es → ∃ acc' es',
          collectRef r levels x.1 ⟨x.2.1, x.2.2.1⟩ x.2.2.2 acc = .ok acc'
            ∧ Gathers r (a :: under) [x] es es' acc' := by
        intro x hx acc es hacc
        have hedge : r.Leads a x.2 := ⟨x.1, hx⟩
        refine ih (hnext x.2 hedge) ?_ hacc
        intro u hu
        rcases List.mem_cons.mp hu with rfl | hu
        · exact .single hedge
        · exact (hunder u hu).tail hedge
      obtain ⟨acc₁, es₁, hfold, hbelow⟩ := collectEdges_gathers hstep hentered
      refine ⟨{ acc₁ with out := acc₁.out ++ [⟨name, rec.schema⟩] }, (name, a) :: es₁, ?_,
        ⟨?_, ?_⟩, ?_, ?_, ?_⟩
      · rw [collectRef_of_recordAt hseen hrec, hfold]
        rfl
      · refine hbelow.walking.leave hnot ?_
        rintro b ⟨name', hb⟩
        exact hbelow.reached (name', b) hb
      · simp [hbelow.entries, Reader.entryOf, hrec]
      · exact fun e he => List.mem_cons_of_mem _ (hbelow.old he)
      · intro x hx
        rw [List.mem_singleton.mp hx]
        exact List.mem_cons_self
      · intro e he
        rcases List.mem_cons.mp he with rfl | he
        · exact .inr (.inl (List.mem_singleton_self _))
        · exact (hbelow.source e he).imp id Reader.EdgeFrom.of_edges

end Walk

/-! ### The resolved list -/

section Request

variable {r : Reader} {ctx : String}

theorem resolveReference_of_selects {rin : RefIn} {f : ResolvedReference} {acc acc' : Collected}
    (h : Selects r ctx rin f)
    (hcollect : collectRef r maxLevels f.concrete.name f.target.1 f.target.2 acc = .ok acc') :
    resolveReference r ctx rin acc = .ok (f, acc') := by
  obtain ⟨name, subject, version, spec, vr, rfl, hconcrete, htarget, hspec, hexact⟩ := h
  rw [hconcrete] at hcollect
  rw [htarget] at hexact hcollect
  simp only [resolveReference, hspec, ok_bind, hexact, hcollect, Bool.false_eq_true, if_false]
  obtain ⟨concrete, target, v⟩ := f
  simp only at hconcrete htarget
  rw [hconcrete, htarget]

theorem resolveLoop_of_selects {refs : List RefIn} {found : List ResolvedReference}
    (h : List.Forall₂ (Selects r ctx) refs found) {acc acc' : Collected}
    (hcollect : collectEdges r maxLevels acc (found.map (·.edge)) = .ok acc') :
    resolveLoop r ctx refs acc = .ok (found, acc') := by
  induction h generalizing acc with
  | nil =>
    cases hcollect
    rfl
  | cons hone _ ih =>
    rw [List.map_cons, collectEdges, List.foldlM_cons] at hcollect
    obtain ⟨acc₁, hfirst, hrest⟩ := bind_eq_ok.mp hcollect
    rw [resolveLoop, resolveReference_of_selects hone hfirst]
    simp only [ok_bind]
    rw [ih hrest]
    rfl

/-- References to versions that are there, with all they lead to and no deeper than 64, resolve. -/
theorem resolveReferences_gathers {refs : List RefIn} {found : List ResolvedReference}
    (hfound : List.Forall₂ (Selects r ctx) refs found)
    (hdepth : ∀ f ∈ found, r.Within maxLevels f.edge.2) :
    ∃ acc es, resolveReferences r ctx refs
        = .ok (found.map (·.concrete), acc.out, found.map (·.target))
      ∧ Gathers r [] (found.map (·.edge)) [] es acc := by
  have hstep : ∀ x ∈ found.map (·.edge), ∀ acc es, Gathered r [] acc es → ∃ acc' es',
      collectRef r maxLevels x.1 ⟨x.2.1, x.2.2.1⟩ x.2.2.2 acc = .ok acc'
        ∧ Gathers r [] [x] es es' acc' := by
    intro x hx acc es hacc
    obtain ⟨f, hf, rfl⟩ := List.mem_map.mp hx
    exact collectRef_gathers (hdepth f hf) (by simp) hacc
  obtain ⟨acc, es, hcollect, hall⟩ :=
    collectEdges_gathers hstep (⟨walking_nil, rfl⟩ : Gathered r [] {} [])
  refine ⟨acc, es, ?_, hall⟩
  rw [resolveReferences, resolveLoop_of_selects hfound hcollect]
  rfl

/-- References to versions that are there, with all they lead to and no deeper than 64, resolve,
and the resolved list is complete and in order exactly if no version is reached under two names. -/
theorem resolution_complete_iff {refs : List RefIn} {found : List ResolvedReference}
    (hfound : List.Forall₂ (Selects r ctx) refs found)
    (hdepth : ∀ f ∈ found, r.Within maxLevels f.edge.2) :
    ∃ out, resolveReferences r ctx refs = .ok (found.map (·.concrete), out, found.map (·.target))
      ∧ ((∃ es, ListsAll r (r.EdgeFrom (found.map (·.edge))) out es)
        ↔ ∀ name name' a, r.EdgeFrom (found.map (·.edge)) (name, a) →
          r.EdgeFrom (found.map (·.edge)) (name', a) → name = name') := by
  obtain ⟨acc, es, hresolved, hall⟩ := resolveReferences_gathers hfound hdepth
  refine ⟨acc.out, hresolved, ?_⟩
  have hsource : ∀ e ∈ es, r.EdgeFrom (found.map (·.edge)) e :=
    fun e he => (hall.source e he).resolve_left List.not_mem_nil
  have hnodup : es.Nodup := hall.walking.nodup.of_map
  constructor
  · rintro ⟨es', hlists⟩ name name' a hname hname'
    have hlength : es'.length = es.length := by
      have heq := congrArg List.length (hlists.entries.symm.trans hall.entries)
      simpa using heq
    -- The list has room for one entry a version only.
    have hperm := (List.subperm_of_subset hnodup fun x hx =>
      hlists.complete x (hsource x hx)).perm_of_length_le hlength.le
    have hmem : ∀ e, r.EdgeFrom (found.map (·.edge)) e → e ∈ es := fun e he =>
      hperm.mem_iff.mpr (hlists.complete e he)
    have hsame := List.inj_on_of_nodup_map hall.walking.nodup (hmem _ hname) (hmem _ hname') rfl
    exact congrArg Prod.fst hsame
  · intro hone
    refine ⟨es.reverse, hall.entries, ?_, ?_⟩
    · intro e he
      have hreached : e.2 ∈ es.map Prod.snd := by
        rcases he with he | ⟨x, hx, a, hreach, he⟩
        · exact hall.reached e he
        · exact hall.walking.order.mem_of_edge
            (hall.walking.order.mem_of_reach (hall.reached x hx) hreach) ⟨e.1, he⟩
      obtain ⟨⟨name', a⟩, he', ha⟩ := List.mem_map.mp hreached
      cases ha
      rw [List.mem_reverse, ← Prod.mk.eta (p := e), hone e.1 name' e.2 he (hsource _ he')]
      exact he'
    · intro before e after hsplit b hb
      have hmap : (es.map Prod.snd).reverse = before.map Prod.snd ++ e.2 :: after.map Prod.snd := by
        rw [← List.map_reverse, hsplit, List.map_append, List.map_cons]
      exact hall.walking.order.mem_before hmap (.single hb)

end Request

/-! ### One version under two names -/

/-- A reference to a version under a name. -/
def refersTo (name subject : String) : RefIn := ⟨false, some name, some subject, some 1⟩

/-- What it names in the default context. -/
def refersToFound (name subject : String) : ResolvedReference :=
  ⟨⟨name, subject, 1⟩, ⟨".", subject⟩, 1⟩

/-- A version without references leads nowhere. -/
theorem Reader.within_leaf {r : Reader} {a : VersionKey} (h : (r.recordAt a).isSome = true)
    (hedges : r.edges a = []) (levels : Nat) : r.Within (levels + 1) a := by
  refine .inr ⟨h, ?_⟩
  rintro b ⟨name, hb⟩
  rw [hedges] at hb
  cases hb

theorem selects_refersTo {r : Reader} {name subject : String}
    (htarget : refTarget "." ⟨name, subject, 1⟩ = ⟨".", subject⟩)
    (hexact : (getExact r ⟨".", subject⟩ (.exact 1) true).map Prod.fst = some 1) :
    Selects r "." (refersTo name subject) (refersToFound name subject) := by
  obtain ⟨⟨v, vr⟩, hrow, hv⟩ := Option.map_eq_some_iff.mp hexact
  cases hv
  exact ⟨name, subject, 1, .exact 1, vr, rfl, rfl, htarget.symm, rfl, hrow⟩

/-- A version that is referenced under two names is listed under the first only. -/
theorem second_name_missing :
    ∃ reg found, reg = plainRun [registerJson "c" "\x7b\x7d"]
      ∧ List.Forall₂ (Selects reg.reader ".") [refersTo "n1" "c", refersTo "n2" "c"] found
      ∧ (∀ f ∈ found, reg.reader.Within maxLevels f.edge.2)
      ∧ reg.reader.EdgeFrom (found.map (·.edge)) ("n2", ".", "c", 1)
      ∧ reg.reader.entryOf ("n2", ".", "c", 1) = some ⟨"n2", "\x7b\x7d"⟩
      ∧ (resolveReferences reg.reader "." [refersTo "n1" "c", refersTo "n2" "c"]).toOption.map
        (·.2.1) = some [⟨"n1", "\x7b\x7d"⟩] := by
  refine ⟨_, [refersToFound "n1" "c", refersToFound "n2" "c"], rfl, ?_, ?_, .inl (by decide),
    by decide, by decide⟩
  · exact .cons (selects_refersTo (by decide) (by decide))
      (.cons (selects_refersTo (by decide) (by decide)) .nil)
  · intro f hf
    have hkey : f.edge.2 = (".", "c", 1) := by
      simp only [List.mem_cons, List.not_mem_nil, or_false] at hf
      rcases hf with rfl | rfl <;> rfl
    rw [hkey]
    exact Reader.within_leaf (by decide) (by decide) 64

/-- A version that references another, under the other's name. -/
def namedHistory : List Request := [registerJson "c" "\x7b\x7d", registerReferring "b" "true" "c" 1]

/-- A reference to a version whose own reference is listed before it. -/
theorem resolution_complete_namedHistory :
    ∃ reg out, reg = plainRun namedHistory
      ∧ resolveReferences reg.reader "." [refersTo "b" "b"]
        = .ok ([⟨"b", "b", 1⟩], out, [(⟨".", "b"⟩, 1)])
      ∧ ∃ es, ListsAll reg.reader (reg.reader.EdgeFrom [("b", ".", "b", 1)]) out es := by
  have hb : (plainRun namedHistory).reader.edges (".", "b", 1)
      = [("c", ".", "c", 1)] := by decide
  have hc : (plainRun namedHistory).reader.edges (".", "c", 1)
      = [] := by decide
  generalize hreg : plainRun namedHistory = reg at hb hc
  have hwithin : reg.reader.Within maxLevels (".", "b", 1) := by
    refine .inr ⟨by rw [← hreg]; decide, ?_⟩
    rintro a ⟨name, ha⟩
    rw [hb, List.mem_singleton] at ha
    cases ha
    exact Reader.within_leaf (by rw [← hreg]; decide) hc 63
  have hselects :
      List.Forall₂ (Selects reg.reader ".") [refersTo "b" "b"] [refersToFound "b" "b"] :=
    .cons (selects_refersTo (by decide) (by rw [← hreg]; decide)) .nil
  obtain ⟨out, hout, hiff⟩ :=
    resolution_complete_iff hselects (List.forall_mem_singleton.mpr hwithin)
  refine ⟨reg, out, rfl, hout, hiff.mpr ?_⟩
  -- The only edges are the one to `b` and the one from there.
  have hleads : ∀ x, ReflTransGen reg.reader.Leads (".", "b", 1) x →
      x = (".", "b", 1) ∨ x = (".", "c", 1) := by
    intro x hx
    induction hx with
    | refl => exact .inl rfl
    | tail _ hedge ih =>
      obtain ⟨name, hedge⟩ := hedge
      rcases ih with rfl | rfl
      · rw [hb, List.mem_singleton] at hedge
        exact .inr (congrArg Prod.snd hedge)
      · rw [hc] at hedge
        cases hedge
  have hedges : ∀ e, reg.reader.EdgeFrom [("b", ".", "b", 1)] e → e.1 = e.2.2.1 := by
    rintro e (he | ⟨x, hx, a, hreach, he⟩)
    · rw [List.mem_singleton.mp he]
    · rw [List.mem_singleton.mp hx] at hreach
      rcases hleads a hreach with rfl | rfl
      · rw [hb, List.mem_singleton] at he
        rw [he]
      · rw [hc] at he
        cases he
  intro name name' a h h'
  exact (hedges _ h).trans (hedges _ h').symm

end SchemaRegistry
