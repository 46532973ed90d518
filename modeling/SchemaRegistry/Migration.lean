import SchemaRegistry.Lib.Run
import SchemaRegistry.Store.Migration

/-!
The migration of an old database is safe to interrupt. At every moment each old row is either
where it was or, with its value, in the `default` container, never both and never neither; a
run that starts in such a state keeps it and, if it comes to its end, leaves no row behind.
-/

namespace SchemaRegistry

open Lib

namespace PhysicalStore

variable {old db : PhysicalStore} {c : Cf} {key : Bytes}

/-- A database from before host containers: no key in the `default` container, and no marker
that says it is current. -/
structure Legacy (db : PhysicalStore) : Prop where
  unprefixed : ∀ c key, TenantId.default.keyPrefix <+: key → db.get? c key = none
  outdated : ∀ v, db.get? .«meta» formatVersionKey = some v →
    ∃ n, beU32 v = some n ∧ n ≠ formatVersion

/-- The row of the `default` container in the store's list of containers. -/
def defaultContainerKey : Bytes := tenantKeyPrefix ++ utf8 TenantId.default.name

/-- What the migration is to leave: every old row once, in the `default` container and with its
value, and the store's own rows as they were but for the two markers. -/
structure Migrated (old db : PhysicalStore) : Prop where
  moved : ∀ c key, c.isReserved key = false →
    db.get? c (TenantId.default.keyPrefix ++ key) = old.get? c key
  only : ∀ c key cell, db.get? c key = some cell → c.isReserved key = true ∨
    ∃ rest, key = TenantId.default.keyPrefix ++ rest ∧ c.isReserved rest = false
      ∧ old.get? c rest = some cell
  reserved : ∀ key, Cf.isReserved .«meta» key = true → key ≠ formatVersionKey →
    key ≠ defaultContainerKey → db.get? .«meta» key = old.get? .«meta» key
  format : db.get? .«meta» formatVersionKey = some (be32 formatVersion)
  container : db.get? .«meta» defaultContainerKey = some []

/-- A database on its way: each row to be moved is at its old place or at its new one. -/
structure Partway (old db : PhysicalStore) : Prop where
  rows : ∀ c key, stays c key = false →
    db.get? c key = old.get? c key ∧ db.get? c (TenantId.default.keyPrefix ++ key) = none ∨
    db.get? c key = none ∧ db.get? c (TenantId.default.keyPrefix ++ key) = old.get? c key
  others : ∀ c key, stays c key = true → db.get? c (TenantId.default.keyPrefix ++ key) = none
  reserved : ∀ key, Cf.isReserved .«meta» key = true → db.get? .«meta» key = old.get? .«meta» key

/-- Nothing is left to move in a column family. -/
def Cleared (db : PhysicalStore) (c : Cf) : Prop :=
  ∀ key, stays c key = false → db.get? c key = none

/-! ### Keys -/

theorem stays_prefixed (c : Cf) (key : Bytes) :
    stays c (TenantId.default.keyPrefix ++ key) = true := by
  have h : TenantId.default.keyPrefix.isPrefixOf (TenantId.default.keyPrefix ++ key) = true :=
    List.isPrefixOf_iff_prefix.mpr (List.prefix_append _ _)
  rw [stays, h, Bool.or_true]

theorem isReserved_prefixed (c : Cf) (key : Bytes) :
    c.isReserved (TenantId.default.keyPrefix ++ key) = false := by
  have h : (TenantId.default.keyPrefix ++ key).head? = some 0x64 := rfl
  rw [Cf.isReserved, h]
  cases c <;> rfl

theorem stays_of_isReserved (h : c.isReserved key = true) : stays c key = true := by
  rw [stays, h, Bool.true_or]

theorem ne_of_stays {key' : Bytes} (h : stays c key = false) (h' : stays c key' = true) :
    key ≠ key' := by
  rintro rfl
  rw [h] at h'
  cases h'

/-! ### Moving rows -/

theorem write_append (db : PhysicalStore) (ops ops' : List BatchOp) :
    db.write (ops ++ ops') = (db.write ops).write ops' := List.foldl_append

theorem get?_moveRow_self (db : PhysicalStore) (row : Bytes × Cell c) (x : Bytes) :
    (db.write (moveRow row)).get? c x =
      if row.1 = x then none
      else if TenantId.default.keyPrefix ++ row.1 = x then some row.2 else db.get? c x := by
  show ((db.applyOp (.put c _ row.2)).applyOp (.delete c row.1)).get? c x = _
  rw [get?_delete_self, get?_put_self]

theorem get?_moveRow_ne (db : PhysicalStore) {c' : Cf} (hc : c ≠ c') (row : Bytes × Cell c)
    (x : Bytes) : (db.write (moveRow row)).get? c' x = db.get? c' x := by
  show ((db.applyOp (.put c _ row.2)).applyOp (.delete c row.1)).get? c' x = _
  rw [get?_delete_ne _ hc, get?_put_ne _ hc]

/-- A row to be moved that is none of the moved ones stays in place. -/
theorem get?_moveRow_of_not_stays (db : PhysicalStore) {c' : Cf} (row : Bytes × Cell c)
    {x : Bytes} (hx : stays c' x = false) :
    (db.write (moveRow row)).get? c' x = db.get? c' x ∨
      (db.write (moveRow row)).get? c' x = none := by
  by_cases hc : c = c'
  · subst hc
    rw [get?_moveRow_self db row]
    by_cases h : row.1 = x
    · rw [if_pos h]
      exact .inr rfl
    · rw [if_neg h, if_neg (ne_of_stays hx (stays_prefixed c row.1)).symm]
      exact .inl rfl
  · exact .inl (get?_moveRow_ne db hc row x)

/-- A row of the old database that is to be moved. -/
def Moves (old : PhysicalStore) (row : Bytes × Cell c) : Prop :=
  stays c row.1 = false ∧ old.get? c row.1 = some row.2

/-- Moving an old row keeps the database on its way, whether it has been moved before or not. -/
theorem Partway.moveRow (h : Partway old db) {row : Bytes × Cell c} (hrow : Moves old row) :
    Partway old (db.write (moveRow row)) := by
  obtain ⟨hstay, hold⟩ := hrow
  have hfront : ∀ x, row.1 ≠ TenantId.default.keyPrefix ++ x := fun x =>
    ne_of_stays hstay (stays_prefixed c x)
  constructor
  · intro c' x hx
    by_cases hc : c = c'
    · subst hc
      simp only [get?_moveRow_self db row, if_neg (hfront x), List.append_cancel_left_eq]
      by_cases hkey : row.1 = x
      · subst hkey
        rw [if_pos rfl, if_pos rfl]
        exact .inr ⟨rfl, hold.symm⟩
      · rw [if_neg hkey, if_neg hkey, if_neg (ne_of_stays hx (stays_prefixed c row.1)).symm]
        exact h.rows c x hx
    · simp only [get?_moveRow_ne db hc]
      exact h.rows c' x hx
  · intro c' x hx
    by_cases hc : c = c'
    · subst hc
      have hne := ne_of_stays hstay hx
      rw [get?_moveRow_self db row, if_neg (hfront x),
        if_neg fun heq => hne (List.append_cancel_left heq)]
      exact h.others c x hx
    · rw [get?_moveRow_ne db hc]
      exact h.others c' x hx
  · intro x hx
    by_cases hc : c = .«meta»
    · subst hc
      have hne : TenantId.default.keyPrefix ++ row.1 ≠ x := by
        rintro rfl
        rw [isReserved_prefixed] at hx
        cases hx
      rw [get?_moveRow_self db row, if_neg (ne_of_stays hstay (stays_of_isReserved hx)), if_neg hne]
      exact h.reserved x hx
    · rw [get?_moveRow_ne db hc]
      exact h.reserved x hx

theorem Cleared.moveRow {c' : Cf} (h : db.Cleared c') (row : Bytes × Cell c) :
    (db.write (moveRow row)).Cleared c' := by
  intro x hx
  rcases get?_moveRow_of_not_stays db row hx with hsame | hnone
  · rw [hsame]
    exact h x hx
  · exact hnone

/-- The rows a batch, or several of them, move. -/
def moveRows (rows : List (Bytes × Cell c)) : List BatchOp := rows.flatMap moveRow

theorem Partway.moveRows {rows : List (Bytes × Cell c)} (h : Partway old db)
    (hrows : ∀ row ∈ rows, Moves old row) : Partway old (db.write (moveRows rows)) := by
  induction rows generalizing db with
  | nil => exact h
  | cons row rows ih =>
    rw [PhysicalStore.moveRows, List.flatMap_cons, write_append]
    exact ih (h.moveRow (hrows row List.mem_cons_self))
      fun row' hmem => hrows row' (List.mem_cons_of_mem row hmem)

theorem Cleared.moveRows {c' : Cf} (h : db.Cleared c') (rows : List (Bytes × Cell c)) :
    (db.write (moveRows rows)).Cleared c' := by
  induction rows generalizing db with
  | nil => exact h
  | cons row rows ih =>
    rw [PhysicalStore.moveRows, List.flatMap_cons, write_append]
    exact ih (h.moveRow row)

/-- Rows that have been moved are no longer at their old place. -/
theorem get?_moveRows {rows : List (Bytes × Cell c)} {x : Bytes} (hx : stays c x = false)
    (hleft : x ∈ rows.map Prod.fst ∨ db.get? c x = none) :
    (db.write (moveRows rows)).get? c x = none := by
  induction rows generalizing db with
  | nil =>
    rcases hleft with hmem | hnone
    · cases hmem
    · exact hnone
  | cons row rows ih =>
    rw [PhysicalStore.moveRows, List.flatMap_cons, write_append]
    refine ih ?_
    by_cases hkey : row.1 = x
    · exact .inr (by rw [get?_moveRow_self db row, if_pos hkey])
    · rcases hleft with hmem | hnone
      · rw [List.map_cons, List.mem_cons] at hmem
        exact .inl (hmem.resolve_left (Ne.symm hkey))
      · rcases get?_moveRow_of_not_stays db row hx with hsame | hgone
        · exact .inr (hsame.trans hnone)
        · exact .inr hgone

/-! ### One column family -/

/-- The batches of a scan move the rows to be moved, in groups. -/
theorem moveBatches_eq (rows held : List (Bytes × Cell c)) :
    ∃ groups : List (List (Bytes × Cell c)),
      moveBatches rows (moveRows held) held.length = groups.map moveRows
        ∧ groups.flatten = held ++ rows.filter fun row => !stays c row.1 := by
  induction rows generalizing held with
  | nil =>
    cases held with
    | nil => exact ⟨[], rfl, rfl⟩
    | cons row held => exact ⟨[row :: held], rfl, by simp⟩
  | cons row rows ih =>
    rw [moveBatches]
    by_cases hstay : stays c row.1 = true
    · rw [if_pos hstay, List.filter_cons_of_neg (by simp [hstay])]
      exact ih held
    · have hgroup : moveRows held ++ moveRow row = moveRows (held ++ [row]) := by
        simp [PhysicalStore.moveRows]
      rw [if_neg hstay, List.filter_cons_of_pos (by simp [hstay]), hgroup]
      by_cases hfull : batchRows ≤ held.length + 1
      · rw [if_pos hfull]
        obtain ⟨groups, hbatches, hflatten⟩ := ih []
        exact ⟨(held ++ [row]) :: groups, by rw [List.map_cons, ← hbatches]; rfl,
          by rw [List.flatten_cons, hflatten]; simp⟩
      · rw [if_neg hfull]
        obtain ⟨groups, hbatches, hflatten⟩ := ih (held ++ [row])
        rw [List.length_append] at hbatches
        exact ⟨groups, hbatches, by rw [hflatten]; simp⟩

theorem writeBatches_inv {inv : PhysicalStore → Prop} {batches : List (List BatchOp)} {budget : Nat}
    (h : inv db) (hbatch : ∀ batch ∈ batches, ∀ db, inv db → inv (db.write batch)) :
    inv (writeBatches budget db batches).1 := by
  induction batches generalizing budget db with
  | nil => cases budget <;> exact h
  | cons batch batches ih =>
    cases budget with
    | zero => exact h
    | succ budget =>
      exact ih (hbatch batch List.mem_cons_self db h)
        fun batch' hmem => hbatch batch' (List.mem_cons_of_mem batch hmem)

theorem eq_of_writeBatches {batches : List (List BatchOp)} {budget left : Nat} {db' : PhysicalStore}
    (h : writeBatches budget db batches = (db', some left)) : db' = db.write batches.flatten := by
  induction batches generalizing budget db with
  | nil =>
    cases budget <;> cases h <;> rfl
  | cons batch batches ih =>
    cases budget with
    | zero => cases h
    | succ budget =>
      rw [List.flatten_cons, write_append]
      exact ih h

/-- With batches enough to live, the whole list is written. -/
theorem writeBatches_add (batches : List (List BatchOp)) (left : Nat) :
    writeBatches (batches.length + left) db batches = (db.write batches.flatten, some left) := by
  induction batches generalizing db with
  | nil =>
    rw [List.length_nil, Nat.zero_add]
    cases left <;> rfl
  | cons batch batches ih =>
    rw [List.length_cons, Nat.add_right_comm, writeBatches, ih, List.flatten_cons, write_append]

theorem mem_rows_toList {row : Bytes × Cell c} :
    row ∈ (db.rows c).toList ↔ db.get? c row.1 = some row.2 := by
  obtain ⟨k, v⟩ := row
  exact Std.ExtTreeMap.mem_toList_iff_getElem?_eq_some

/-- A row still at its old place is an old row. -/
theorem Partway.moves (h : Partway old db) {row : Bytes × Cell c} (hmem : row ∈ (db.rows c).toList)
    (hstay : stays c row.1 = false) : Moves old row := by
  refine ⟨hstay, ?_⟩
  have hrow := mem_rows_toList.mp hmem
  rcases h.rows c row.1 hstay with ⟨hsame, -⟩ | ⟨hnone, -⟩
  · rw [← hsame, hrow]
  · rw [hnone] at hrow
    cases hrow

/-- The batches of a column family, as groups of old rows that together are all there is. -/
theorem Partway.batches (h : Partway old db) (c : Cf) :
    ∃ groups : List (List (Bytes × Cell c)),
      moveBatches (db.rows c).toList [] 0 = groups.map PhysicalStore.moveRows
        ∧ (∀ group ∈ groups, ∀ row ∈ group, Moves old row)
        ∧ ∀ row, row ∈ groups.flatten ↔ row ∈ (db.rows c).toList ∧ stays c row.1 = false := by
  obtain ⟨groups, hbatches, hflatten⟩ := moveBatches_eq (db.rows c).toList []
  have hmem : ∀ row, row ∈ groups.flatten ↔ row ∈ (db.rows c).toList ∧ stays c row.1 = false := by
    intro row
    rw [hflatten]
    simp
  refine ⟨groups, hbatches, fun group hgroup row hrow => ?_, hmem⟩
  have hrow := (hmem row).mp (List.mem_flatten.mpr ⟨group, hgroup, hrow⟩)
  exact h.moves hrow.1 hrow.2

theorem write_flatten_map_moveRows (db : PhysicalStore) (groups : List (List (Bytes × Cell c))) :
    db.write (groups.map moveRows).flatten = db.write (moveRows groups.flatten) := by
  rw [moveRows, List.flatMap_def, List.map_flatten, List.flatten_flatten, List.map_map]
  rfl

/-! ### The whole run -/

theorem Partway.moveCfs (h : Partway old db) (budget : Nat) (cs : List Cf) :
    Partway old (moveCfs budget db cs).1 := by
  induction cs generalizing budget db with
  | nil => cases budget <;> exact h
  | cons c cs ih =>
    obtain ⟨groups, hbatches, hmoves, -⟩ := h.batches c
    have hone : Partway old (writeBatches budget db (moveBatches (db.rows c).toList [] 0)).1 := by
      refine writeBatches_inv h fun batch hbatch db' hdb' => ?_
      rw [hbatches, List.mem_map] at hbatch
      obtain ⟨group, hgroup, rfl⟩ := hbatch
      exact hdb'.moveRows (hmoves group hgroup)
    rw [PhysicalStore.moveCfs]
    split
    · next heq =>
        rw [heq] at hone
        exact hone
    · next heq =>
        rw [heq] at hone
        exact ih hone _

/-- A run through column families that comes to its end clears them, and what was clear before
stays so. -/
theorem cleared_of_moveCfs (h : Partway old db) {budget left : Nat} {cs : List Cf}
    {db' : PhysicalStore} (hrun : moveCfs budget db cs = (db', some left)) {c : Cf}
    (hc : c ∈ cs ∨ db.Cleared c) : db'.Cleared c := by
  induction cs generalizing budget db with
  | nil =>
    have hc := hc.resolve_left List.not_mem_nil
    cases budget <;> cases hrun <;> exact hc
  | cons d cs ih =>
    obtain ⟨groups, hbatches, hmoves, hall⟩ := h.batches d
    rw [PhysicalStore.moveCfs] at hrun
    split at hrun
    · cases hrun
    next mid left' heq =>
    have hmid := eq_of_writeBatches heq
    rw [hbatches, write_flatten_map_moveRows] at hmid
    have hpartway : Partway old mid := by
      rw [hmid]
      refine h.moveRows fun row hmem => ?_
      obtain ⟨group, hgroup, hrow⟩ := List.mem_flatten.mp hmem
      exact hmoves group hgroup row hrow
    refine ih hpartway hrun ?_
    by_cases hcd : c = d
    · subst hcd
      refine .inr fun x hx => ?_
      rw [hmid]
      refine get?_moveRows hx ?_
      cases hget : db.get? c x with
      | none => exact .inr rfl
      | some cell =>
        exact .inl (List.mem_map.mpr ⟨(x, cell), (hall _).mpr ⟨mem_rows_toList.mpr hget, hx⟩, rfl⟩)
    · rcases hc with hmem | hcleared
      · exact .inl ((List.mem_cons.mp hmem).resolve_left hcd)
      · rw [hmid]
        exact .inr (hcleared.moveRows _)

/-- A run has only so many batches to write. -/
theorem exists_moveCfs (db : PhysicalStore) (cs : List Cf) :
    ∃ db' cost, ∀ left, moveCfs (cost + left) db cs = (db', some left) := by
  induction cs generalizing db with
  | nil =>
    refine ⟨db, 0, fun left => ?_⟩
    rw [Nat.zero_add, moveCfs]
  | cons c cs ih =>
    obtain ⟨db', cost, hcost⟩ :=
      ih (db.write (moveBatches (db.rows c).toList [] 0).flatten)
    refine ⟨db', (moveBatches (db.rows c).toList [] 0).length + cost, fun left => ?_⟩
    rw [moveCfs, Nat.add_assoc, writeBatches_add]
    exact hcost left

/-! ### Restarts -/

theorem formatVersionKey_ne : formatVersionKey ≠ defaultContainerKey := by decide

/-- The markers are two rows of `meta`. -/
theorem get?_markers (db : PhysicalStore) {c : Cf} {x : Bytes}
    (h : c = .«meta» → x ≠ formatVersionKey ∧ x ≠ defaultContainerKey) :
    (db.write markers).get? c x = db.get? c x := by
  show ((db.applyOp (.put .«meta» formatVersionKey _)).applyOp
    (.put .«meta» defaultContainerKey _)).get? c x = _
  by_cases hc : Cf.«meta» = c
  · subst hc
    rw [get?_put_self, if_neg (h rfl).2.symm, get?_put_self, if_neg (h rfl).1.symm]
  · rw [get?_put_ne _ hc, get?_put_ne _ hc]

theorem get?_markers_of_not_reserved (db : PhysicalStore) {x : Bytes}
    (h : c.isReserved x = false) : (db.write markers).get? c x = db.get? c x := by
  refine get?_markers db ?_
  rintro rfl
  constructor
  · rintro rfl
    cases h
  · rintro rfl
    cases h

/-- With every column family cleared, the markers are all that is missing. -/
theorem Partway.migrated (hold : Legacy old) (h : Partway old db) (hcleared : ∀ c, db.Cleared c) :
    Migrated old (db.write markers) := by
  have hmoved : ∀ c x, c.isReserved x = false →
      db.get? c (TenantId.default.keyPrefix ++ x) = old.get? c x := by
    intro c x hx
    by_cases hstay : stays c x = true
    · -- Not reserved and staying: an old database has no such key.
      have hfront : TenantId.default.keyPrefix <+: x := by
        rw [stays, hx, Bool.false_or] at hstay
        exact List.isPrefixOf_iff_prefix.mp hstay
      rw [h.others c x hstay, hold.unprefixed c x hfront]
    · have hstay := Bool.not_eq_true _ ▸ hstay
      rcases h.rows c x hstay with ⟨hsame, hnone⟩ | ⟨-, hnew⟩
      · rw [hnone, ← hsame, hcleared c x hstay]
      · exact hnew
  constructor
  · intro c x hx
    rw [get?_markers_of_not_reserved db (isReserved_prefixed c x), hmoved c x hx]
  · intro c x cell hget
    by_cases hreserved : c.isReserved x = true
    · exact .inl hreserved
    · have hnot := Bool.not_eq_true _ ▸ hreserved
      have hget' : db.get? c x = some cell := by
        rw [← hget, get?_markers_of_not_reserved db hnot]
      have hstay : stays c x = true := by
        by_contra hstay
        rw [hcleared c x (Bool.not_eq_true _ ▸ hstay)] at hget'
        cases hget'
      rw [stays, hnot, Bool.false_or] at hstay
      obtain ⟨rest, rfl⟩ := List.isPrefixOf_iff_prefix.mp hstay
      have hrest : c.isReserved rest = false := by
        by_contra hrest
        have hrest := Bool.not_eq_false _ ▸ hrest
        rw [h.others c rest (stays_of_isReserved hrest)] at hget'
        cases hget'
      exact .inr ⟨rest, rfl, hrest, by rw [← hmoved c rest hrest, hget']⟩
  · intro x hx hformat hcontainer
    rw [get?_markers db fun _ => ⟨hformat, hcontainer⟩, h.reserved x hx]
  · show ((db.applyOp (.put .«meta» formatVersionKey _)).applyOp
      (.put .«meta» defaultContainerKey _)).get? .«meta» formatVersionKey = _
    rw [get?_put_self, if_neg formatVersionKey_ne.symm, get?_put_self, if_pos rfl]
  · show ((db.applyOp (.put .«meta» formatVersionKey _)).applyOp
      (.put .«meta» defaultContainerKey _)).get? .«meta» defaultContainerKey = _
    rw [get?_put_self, if_pos rfl]

theorem Legacy.partway (h : Legacy old) : Partway old old where
  rows c _ _ := .inl ⟨rfl, h.unprefixed c _ (List.prefix_append _ _)⟩
  others c _ _ := h.unprefixed c _ (List.prefix_append _ _)
  reserved _ _ := rfl

theorem Partway.outdated (hold : Legacy old) (h : Partway old db) :
    db.formatVersion? ≠ some formatVersion := by
  intro hcurrent
  rw [formatVersion?, h.reserved formatVersionKey rfl, Option.bind_eq_some_iff] at hcurrent
  obtain ⟨v, hv, hn⟩ := hcurrent
  obtain ⟨n, hn', hne⟩ := hold.outdated v hv
  rw [hn] at hn'
  exact hne (Option.some.inj hn').symm

theorem Migrated.current (h : Migrated old db) : db.formatVersion? = some formatVersion := by
  rw [formatVersion?, h.format, Option.bind_some, beU32_be32]

theorem mem_allCfs (c : Cf) : c ∈ allCfs := by cases c <;> decide

/-- One run keeps a database on its way or brings it to its end. -/
theorem Partway.run (hold : Legacy old) (h : Partway old db) (budget : Nat) :
    (db.migrateToCurrentFormat budget).2 = false
        ∧ Partway old (db.migrateToCurrentFormat budget).1 ∨
      (db.migrateToCurrentFormat budget).2 = true
        ∧ Migrated old (db.migrateToCurrentFormat budget).1 := by
  have hmid := h.moveCfs budget allCfs
  rw [migrateToCurrentFormat, if_neg (h.outdated hold)]
  split
  · next heq => exact .inl ⟨rfl, by rwa [heq] at hmid⟩
  · next heq => exact .inl ⟨rfl, by rwa [heq] at hmid⟩
  · next heq =>
      rw [heq] at hmid
      exact .inr ⟨rfl, hmid.migrated hold fun c => cleared_of_moveCfs h heq (.inl (mem_allCfs c))⟩

theorem Migrated.run (h : Migrated old db) (budget : Nat) :
    db.migrateToCurrentFormat budget = (db, true) := by
  rw [migrateToCurrentFormat, if_pos h.current]

/-- Whatever cut the runs so far short. -/
theorem partway_or_migrated (hold : Legacy old) (budgets : List Nat) :
    Partway old (old.restarts budgets) ∨ Migrated old (old.restarts budgets) := by
  have hstep : ∀ db budget, Partway old db ∨ Migrated old db →
      Partway old (db.migrateToCurrentFormat budget).1
        ∨ Migrated old (db.migrateToCurrentFormat budget).1 := by
    rintro db budget (hpartway | hmigrated)
    · rcases hpartway.run hold budget with ⟨-, hnext⟩ | ⟨-, hdone⟩
      · exact .inl hnext
      · exact .inr hdone
    · rw [hmigrated.run]
      exact .inr hmigrated
  exact inv_of_run (.inl hold.partway) hstep

/-- After any number of runs cut short between batches, a run comes to its end if it lives long
enough, and a run that comes to its end has moved every old row. -/
theorem migrated_of_restarts {old : PhysicalStore} (hold : Legacy old) (budgets : List Nat) :
    (∃ cost, ∀ budget, cost ≤ budget →
        ((old.restarts budgets).migrateToCurrentFormat budget).2 = true)
      ∧ ∀ budget db, (old.restarts budgets).migrateToCurrentFormat budget = (db, true) →
          Migrated old db := by
  rcases partway_or_migrated hold budgets with h | h
  · constructor
    · obtain ⟨db', cost, hcost⟩ := exists_moveCfs (old.restarts budgets) allCfs
      refine ⟨cost + 1, fun budget hbudget => ?_⟩
      obtain ⟨more, rfl⟩ := Nat.exists_eq_add_of_le hbudget
      rw [migrateToCurrentFormat, if_neg (h.outdated hold), Nat.add_assoc, Nat.add_comm 1, hcost]
    · intro budget db hrun
      rcases h.run hold budget with ⟨hfalse, -⟩ | ⟨-, hdone⟩
      · rw [hrun] at hfalse
        cases hfalse
      · rwa [hrun] at hdone
  · constructor
    · exact ⟨0, fun budget _ => by rw [h.run]⟩
    · intro budget db hrun
      rw [h.run] at hrun
      cases hrun
      exact h

/-- One version, its row of the change log and the sequence counter, as they were written before
host containers existed. -/
def beforeContainers : PhysicalStore :=
  (default : PhysicalStore).write
    [.put .versions (versionKey "." "orders" 1) ⟨7, false, 0⟩,
     .put .log (be64 0) ⟨".", "orders", 1, 7, .register⟩,
     .put .«meta» logSeqKey (be64 1)]

theorem legacy_beforeContainers : Legacy beforeContainers := by
  have hrow : ∀ key, TenantId.default.keyPrefix <+: key → versionKey "." "orders" 1 ≠ key
      ∧ be64 0 ≠ key ∧ logSeqKey ≠ key := by
    rintro _ ⟨rest, rfl⟩
    refine ⟨fun h => ?_, fun h => ?_, fun h => ?_⟩ <;> cases congrArg List.head? h
  constructor
  · intro c key hfront
    obtain ⟨hversion, hlog, hseq⟩ := hrow key hfront
    show ((((default : PhysicalStore).applyOp (.put .versions _ _)).applyOp (.put .log _ _)).applyOp
      (.put .«meta» _ _)).get? c key = none
    cases c <;> simp [hversion, hlog, hseq]
  · intro v hv
    have hnone : beforeContainers.get? .«meta» formatVersionKey = none := by decide
    rw [hnone] at hv
    cases hv

/-- The change log moves as well, though its first key starts with the reserved byte. -/
theorem migrated_beforeContainers :
    ∃ db, (beforeContainers.restarts [0, 2]).migrateToCurrentFormat 4 = (db, true)
      ∧ Migrated beforeContainers db
      ∧ (db.get? .log (TenantId.default.keyPrefix ++ be64 0)).isSome = true := by
  have hdone : ((beforeContainers.restarts [0, 2]).migrateToCurrentFormat 4).2 = true := by
    decide
  have hmigrated := (migrated_of_restarts legacy_beforeContainers [0, 2]).2 4 _ (Prod.ext rfl hdone)
  refine ⟨_, Prod.ext rfl hdone, hmigrated, ?_⟩
  rw [hmigrated.moved .log (be64 0) rfl]
  decide

end PhysicalStore

end SchemaRegistry
