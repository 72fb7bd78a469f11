-- SUMMARY: Relational tables with constraints and indexes, the statements that define them, and scripts of such statements.
import Mathlib.Data.List.Nodup

/-!
# Data definition

The catalog of a database says which tables, columns, constraints and indexes there are. A statement makes a new
catalog of it, or is refused; a constraint is added only if the rows meet it. No statement here drops a table or a
column, and a column is added with NULL in it, so that a row is a function from the names of columns that no
statement changes.
-/

namespace Ddl

variable {ν τ υ : Type*}

/-- What an `INSERT` that does not name the column puts there. -/
inductive Default (υ : Type*) where
  | null
  | value (v : υ)
  /-- `now()` -/
  | now
  deriving DecidableEq

structure Column (ν τ υ : Type*) where
  name : ν
  type : τ
  notNull : Bool
  default : Default υ
  deriving DecidableEq

def Default.eval (now : υ) : Default υ → Option υ
  | .null => none
  | .value v => some v
  | .now => some now

inductive Constraint (ν υ : Type*) where
  /-- No two rows have the same value; NULLs differ. -/
  | unique (column : ν)
  /-- `CHECK (column IN (values))`, which NULL meets. -/
  | oneOf (column : ν) (values : List υ)
  /-- `REFERENCES table(key)` -/
  | references (column table key : ν)
  deriving DecidableEq

structure Table (ν τ υ : Type*) where
  columns : List (Column ν τ υ)
  constraints : List (ν × Constraint ν υ)
  deriving DecidableEq

structure Index (ν υ : Type*) where
  table : ν
  columns : List ν
  /-- `WHERE column = value`. -/
  only : Option (ν × υ)
  deriving DecidableEq

structure Catalog (ν τ υ : Type*) where
  tables : List (ν × Table ν τ υ)
  indexes : List (ν × Index ν υ)
  deriving DecidableEq

/-- What a row has in each column; NULL is `none`. -/
abbrev Row (ν υ : Type*) := ν → Option υ

structure Database (ν τ υ : Type*) where
  catalog : Catalog ν τ υ
  rows : ν → List (Row ν υ)

inductive Stmt (ν τ υ : Type*) where
  /-- `CREATE TABLE IF NOT EXISTS` -/
  | createTable (name : ν) (t : Table ν τ υ)
  /-- `CREATE INDEX IF NOT EXISTS` -/
  | createIndex (name : ν) (i : Index ν υ)
  /-- `DROP INDEX IF EXISTS` -/
  | dropIndex (name : ν)
  /-- `ALTER TABLE table ADD COLUMN IF NOT EXISTS name type` -/
  | addColumn (table name : ν) (type : τ)
  /-- `ALTER TABLE table DROP CONSTRAINT IF EXISTS name` -/
  | dropConstraint (table name : ν)
  /-- `ALTER TABLE table ADD CONSTRAINT name` -/
  | addConstraint (table name : ν) (k : Constraint ν υ)
  deriving DecidableEq

variable [DecidableEq ν]

/-! ## The catalog -/

/-- The row with these fields. -/
def Row.of (fields : List (ν × Option υ)) : Row ν υ := fun x => (fields.lookup x).join

theorem Row.of_cons (f : ν × Option υ) (fields : List (ν × Option υ)) (x : ν) :
    Row.of (f :: fields) x = if f.1 = x then f.2 else Row.of fields x := by
  obtain ⟨name, v⟩ := f
  by_cases hx : name = x
  · simp [Row.of, hx]
  · have hne : (x == name) = false := beq_eq_false_iff_ne.mpr (Ne.symm hx)
    rw [if_neg hx, Row.of, List.lookup_cons, hne]
    rfl

/-- `INSERT INTO table (columns) VALUES (values)`: the row that is added. -/
def Table.newRow (t : Table ν τ υ) (now : υ) (given : List (ν × Option υ)) : Row ν υ :=
  .of (t.columns.map fun c => (c.name, (given.lookup c.name).getD (c.default.eval now)))

def Table.hasColumn (t : Table ν τ υ) (name : ν) : Bool := t.columns.any fun c => c.name = name

/-- The column whose values the constraint keeps unique. -/
def Constraint.key? : Constraint ν υ → Option ν
  | .unique column => some column
  | _ => none

/-- The index behind a key has the name of the constraint. -/
def Table.hasKeyNamed (t : Table ν τ υ) (name : ν) : Bool := t.constraints.any fun k => k.1 = name && k.2.key?.isSome

namespace Catalog

def empty : Catalog ν τ υ := ⟨[], []⟩

def table? (c : Catalog ν τ υ) (name : ν) : Option (Table ν τ υ) := (c.tables.find? fun e => e.1 = name).map (·.2)

/-- Tables and indexes share their names. -/
def isTaken (c : Catalog ν τ υ) (name : ν) : Bool :=
  (c.tables.any fun e => e.1 = name || e.2.hasKeyNamed name) || c.indexes.any fun e => e.1 = name

/-- A foreign key refers to a column whose values are unique. -/
def supports (c : Catalog ν τ υ) : Constraint ν υ → Bool
  | .references _ table key => (c.table? table).any fun t => t.constraints.any fun k => k.2.key? = some key
  | _ => true

def setTable (c : Catalog ν τ υ) (name : ν) (t : Table ν τ υ) : Catalog ν τ υ :=
  { c with tables := c.tables.map fun e => if e.1 = name then (name, t) else e }

/-- What a statement makes of the catalog. -/
def alter (c : Catalog ν τ υ) : Stmt ν τ υ → Option (Catalog ν τ υ)
  | .createTable name t =>
      if c.isTaken name then some c
      else if t.constraints.all fun k => c.supports k.2 then some { c with tables := c.tables ++ [(name, t)] }
      else none
  | .createIndex name i => do
      let t ← c.table? i.table
      if c.isTaken name then some c
      else if i.columns.all t.hasColumn then some { c with indexes := c.indexes ++ [(name, i)] }
      else none
  | .dropIndex name =>
      if c.indexes.any fun e => e.1 = name then some { c with indexes := c.indexes.filter fun e => e.1 ≠ name }
      else if c.isTaken name then none
      else some c
  | .addColumn table name type => do
      let t ← c.table? table
      if t.hasColumn name then some c
      else some (c.setTable table { t with columns := t.columns ++ [⟨name, type, false, .null⟩] })
  | .dropConstraint table name => do
      let t ← c.table? table
      some (c.setTable table { t with constraints := t.constraints.filter fun k => k.1 ≠ name })
  | .addConstraint table name k => do
      let t ← c.table? table
      if (t.constraints.any fun k => k.1 = name) || !c.supports k then none
      else some (c.setTable table { t with constraints := t.constraints ++ [(name, k)] })

def alterAll (c : Catalog ν τ υ) (script : List (Stmt ν τ υ)) : Option (Catalog ν τ υ) := script.foldlM alter c

end Catalog

/-! ## The rows -/

/-- The rows of all tables meet a constraint of a table. -/
def Constraint.Holds (rows : ν → List (Row ν υ)) (table : ν) : Constraint ν υ → Prop
  | .unique column => ((rows table).filterMap fun r => r column).Nodup
  | .oneOf column values => ∀ r ∈ rows table, ∀ v ∈ r column, v ∈ values
  | .references column other key => ∀ r ∈ rows table, ∀ v ∈ r column, ∃ r' ∈ rows other, r' key = some v

omit [DecidableEq ν] in
theorem Constraint.Holds.mono {rows : ν → List (Row ν υ)} {table column : ν} {values values' : List υ}
    (h : Holds rows table (.oneOf column values)) (hsub : values ⊆ values') :
    Holds rows table (.oneOf column values') :=
  fun r hr v hv => hsub (h r hr v hv)

section

variable [DecidableEq υ]

instance (rows : ν → List (Row ν υ)) (table : ν) (k : Constraint ν υ) : Decidable (k.Holds rows table) := by
  cases k <;> unfold Constraint.Holds <;> infer_instance

/-- The rows do not stand in the way of a statement. -/
def Stmt.Admits (rows : ν → List (Row ν υ)) : Stmt ν τ υ → Prop
  | .addConstraint table _ k => k.Holds rows table
  | _ => True

instance (rows : ν → List (Row ν υ)) (st : Stmt ν τ υ) : Decidable (st.Admits rows) := by
  cases st <;> unfold Stmt.Admits <;> infer_instance

namespace Database

def exec (d : Database ν τ υ) (st : Stmt ν τ υ) : Option (Database ν τ υ) :=
  if st.Admits d.rows then (d.catalog.alter st).map fun c => { d with catalog := c } else none

/-- A script takes effect as a whole, or not at all. -/
def run (d : Database ν τ υ) (script : List (Stmt ν τ υ)) : Option (Database ν τ υ) := script.foldlM exec d

variable {d d' : Database ν τ υ} {st : Stmt ν τ υ} {script : List (Stmt ν τ υ)}

theorem exec_eq_some : d.exec st = some d' ↔
    st.Admits d.rows ∧ d.catalog.alter st = some d'.catalog ∧ d'.rows = d.rows := by
  unfold exec
  rw [Option.ite_none_right_eq_some, Option.map_eq_some_iff]
  refine and_congr_right fun _ => ?_
  constructor
  · rintro ⟨c, hc, rfl⟩
    exact ⟨hc, rfl⟩
  · rintro ⟨hc, hrows⟩
    refine ⟨d'.catalog, hc, ?_⟩
    rw [← hrows]

/-- A script is accepted if the catalog admits its statements, one after the other, and the rows admit each. -/
theorem run_eq_some : d.run script = some d' ↔
    (∀ st ∈ script, st.Admits d.rows) ∧ d.catalog.alterAll script = some d'.catalog ∧ d'.rows = d.rows := by
  induction script generalizing d with
  | nil =>
      constructor
      · rintro ⟨⟩
        exact ⟨by rintro _ ⟨⟩, rfl, rfl⟩
      · rintro ⟨-, hc, hrows⟩
        obtain ⟨c, rows⟩ := d
        obtain ⟨c', rows'⟩ := d'
        cases hc
        cases hrows
        rfl
  | cons st script ih =>
      have hrun : d.run (st :: script) = (d.exec st).bind fun u => u.run script := rfl
      have halter : d.catalog.alterAll (st :: script) = (d.catalog.alter st).bind fun c => c.alterAll script := rfl
      rw [hrun, halter, Option.bind_eq_some_iff, Option.bind_eq_some_iff, List.forall_mem_cons]
      constructor
      · rintro ⟨u, hu, h⟩
        obtain ⟨hst, hc, hrows⟩ := exec_eq_some.mp hu
        obtain ⟨hscript, hc', hrows'⟩ := ih.mp h
        rw [hrows] at hscript
        exact ⟨⟨hst, hscript⟩, ⟨u.catalog, hc, hc'⟩, hrows'.trans hrows⟩
      · rintro ⟨⟨hst, hscript⟩, ⟨c, hc, hc'⟩, hrows⟩
        exact ⟨⟨c, d.rows⟩, exec_eq_some.mpr ⟨hst, hc, rfl⟩, ih.mpr ⟨hscript, hc', hrows⟩⟩

end Database

end

/-! ## Rows that fit their tables -/

/-- The rows have the columns, the types and the properties that the table says. -/
structure Table.Fits (fits : τ → υ → Bool) (rows : ν → List (Row ν υ)) (name : ν) (t : Table ν τ υ) : Prop where
  columns : ∀ r ∈ rows name, ∀ c ∈ t.columns, (c.notNull = true → r c.name ≠ none) ∧
    ∀ v ∈ r c.name, fits c.type v = true
  others : ∀ r ∈ rows name, ∀ x, t.hasColumn x = false → r x = none
  constraints : ∀ k ∈ t.constraints, k.2.Holds rows name

structure Database.Valid (fits : τ → υ → Bool) (d : Database ν τ υ) : Prop where
  tables : ∀ name t, d.catalog.table? name = some t → t.Fits fits d.rows name
  others : ∀ name, d.catalog.table? name = none → d.rows name = []

namespace Table

variable {fits : τ → υ → Bool} {rows : ν → List (Row ν υ)} {name column : ν} {t : Table ν τ υ}
  {constraints : List (ν × Constraint ν υ)} {type : τ} {k : Constraint ν υ}

theorem Fits.of_nil (h : rows name = []) : t.Fits fits rows name where
  columns r hr := by simp [h] at hr
  others r hr := by simp [h] at hr
  constraints k _ := by cases hk : k.2 <;> simp [Constraint.Holds, h]

/-- A field is of the column: it has its name and its type, and is not NULL if the column is not. -/
def IsField (fits : τ → υ → Bool) (c : Column ν τ υ) (f : ν × Option υ) : Prop :=
  c.name = f.1 ∧ (c.notNull = true → f.2 ≠ none) ∧ ∀ v ∈ f.2, fits c.type v = true

omit [DecidableEq ν] in
theorem IsField.given {c : Column ν τ υ} {v : υ} (hv : fits c.type v = true) : IsField fits c (c.name, some v) := by
  refine ⟨rfl, fun _ => by rintro ⟨⟩, ?_⟩
  rintro _ ⟨⟩
  exact hv

omit [DecidableEq ν] in
theorem IsField.optional {α : Type*} {x : Option α} {f : α → υ} (hf : ∀ y, fits type (f y) = true) :
    IsField fits ⟨column, type, false, .null⟩ (column, x.map f) := by
  refine ⟨rfl, by rintro ⟨⟩, fun v hv => ?_⟩
  obtain ⟨y, -, rfl⟩ := Option.map_eq_some_iff.mp hv
  exact hf y

private theorem of_fields {columns : List (Column ν τ υ)} {fields : List (ν × Option υ)}
    (h : List.Forall₂ (IsField fits) columns fields) (hnodup : (columns.map (·.name)).Nodup) :
    (∀ c ∈ columns, IsField fits c (c.name, Row.of fields c.name)) ∧
      ∀ x, (columns.any fun c => c.name = x) = false → Row.of fields x = none := by
  induction h with
  | nil =>
      refine ⟨?_, fun _ _ => rfl⟩
      rintro _ ⟨⟩
  | @cons c f columns fields hf _ ih =>
      obtain ⟨hnew, hnodup⟩ := List.nodup_cons.mp hnodup
      obtain ⟨hcolumns, hothers⟩ := ih hnodup
      have htail {x : ν} (hx : f.1 ≠ x) : Row.of (f :: fields) x = Row.of fields x := by
        rw [Row.of_cons, if_neg hx]
      refine ⟨fun c' hc' => ?_, fun x hx => ?_⟩
      · rcases List.mem_cons.mp hc' with rfl | hc'
        · rw [Row.of_cons, if_pos hf.1.symm]
          exact ⟨rfl, hf.2⟩
        · rw [htail fun heq => hnew (List.mem_map.mpr ⟨c', hc', heq.symm.trans hf.1.symm⟩)]
          exact hcolumns c' hc'
      · rw [List.any_cons, Bool.or_eq_false_iff] at hx
        rw [htail fun heq => of_decide_eq_false hx.1 (hf.1.trans heq)]
        exact hothers x hx.2

/-- Rows that are given field by field fit. -/
theorem Fits.of_fields (hnodup : (t.columns.map (·.name)).Nodup)
    (hrows : ∀ r ∈ rows name, ∃ fields, List.Forall₂ (IsField fits) t.columns fields ∧ r = Row.of fields)
    (hconstraints : ∀ k ∈ t.constraints, k.2.Holds rows name) : t.Fits fits rows name where
  columns r hr c hc := by
    obtain ⟨fields, hfields, rfl⟩ := hrows r hr
    exact ((Table.of_fields hfields hnodup).1 c hc).2
  others r hr x hx := by
    obtain ⟨fields, hfields, rfl⟩ := hrows r hr
    exact (Table.of_fields hfields hnodup).2 x hx
  constraints := hconstraints

/-- A new column has NULL in every row. -/
theorem Fits.addColumn (h : t.Fits fits rows name) (hnew : t.hasColumn column = false) :
    Fits fits rows name { t with columns := t.columns ++ [⟨column, type, false, .null⟩] } where
  columns r hr c hc := by
    rcases List.mem_append.mp hc with hc | hc
    · exact h.columns r hr c hc
    · obtain rfl := List.mem_singleton.mp hc
      refine ⟨by rintro ⟨⟩, fun v hv => ?_⟩
      rw [h.others r hr column hnew] at hv
      cases hv
  others r hr x hx := by
    refine h.others r hr x ?_
    simp only [hasColumn, List.any_append, Bool.or_eq_false_iff] at hx
    exact hx.1
  constraints := h.constraints

theorem Fits.dropConstraint (h : t.Fits fits rows name) :
    Fits fits rows name { t with constraints := t.constraints.filter fun k => k.1 ≠ column } where
  columns := h.columns
  others := h.others
  constraints k hk := h.constraints k (List.mem_of_mem_filter hk)

theorem Fits.addConstraint (h : t.Fits fits rows name) (hk : k.Holds rows name) :
    Fits fits rows name { t with constraints := t.constraints ++ [(column, k)] } where
  columns := h.columns
  others := h.others
  constraints k' hk' := by
    rcases List.mem_append.mp hk' with hk' | hk'
    · exact h.constraints k' hk'
    · obtain rfl := List.mem_singleton.mp hk'
      exact hk

end Table

namespace Catalog

variable {c c' : Catalog ν τ υ} {name x : ν} {t : Table ν τ υ}

theorem table?_setTable :
    (c.setTable name t).table? x = if x = name then (c.table? x).map fun _ => t else c.table? x := by
  have hfind : (fun e : ν × Table ν τ υ => decide (e.1 = x)) ∘ (fun e => if e.1 = name then (name, t) else e) =
      fun e => decide (e.1 = x) := by
    funext e
    by_cases he : e.1 = name <;> simp [he]
  simp only [table?, setTable, List.find?_map, hfind, Option.map_map]
  split
  · rename_i hx
    refine Option.map_congr fun e he => ?_
    have hex : e.1 = x := by simpa using List.find?_some he
    simp [hex, hx]
  · rename_i hx
    refine Option.map_congr fun e he => ?_
    have hex : e.1 = x := by simpa using List.find?_some he
    simp [hex, hx]

theorem table?_createTable : table? { c with tables := c.tables ++ [(name, t)] } x =
    (c.table? x).or (if name = x then some t else none) := by
  simp only [table?, List.find?_append, List.find?_singleton]
  by_cases hx : name = x <;> cases c.tables.find? fun e => e.1 = x <;> simp [hx]

theorem table?_eq_none_of_not_taken (h : c.isTaken name = false) : c.table? name = none := by
  simp only [isTaken, Bool.or_eq_false_iff, List.any_eq_false] at h
  simp only [table?, Option.map_eq_none_iff, List.find?_eq_none]
  intro e he heq
  exact h.1 e he (by simp [of_decide_eq_true heq])

end Catalog

namespace Database

variable [DecidableEq υ] {fits : τ → υ → Bool} {d d' : Database ν τ υ} {st : Stmt ν τ υ} {script : List (Stmt ν τ υ)}

omit [DecidableEq υ] in
/-- The catalog changes a table that is there, in a way that the rows still fit. -/
private theorem Valid.setTable {c : Catalog ν τ υ} {rows : ν → List (Row ν υ)} {name : ν} {t t' : Table ν τ υ}
    (h : Valid fits ⟨c, rows⟩) (ht : c.table? name = some t) (ht' : t'.Fits fits rows name) :
    Valid fits ⟨c.setTable name t', rows⟩ where
  tables x u hu := by
    change (c.setTable name t').table? x = some u at hu
    rw [Catalog.table?_setTable] at hu
    split at hu
    · rename_i hx
      subst hx
      rw [ht] at hu
      cases hu
      exact ht'
    · exact h.tables x u hu
  others x hx := by
    change (c.setTable name t').table? x = none at hx
    rw [Catalog.table?_setTable] at hx
    split at hx
    · exact h.others x (Option.map_eq_none_iff.mp hx)
    · exact h.others x hx

theorem Valid.exec (h : d.Valid fits) (hexec : d.exec st = some d') : d'.Valid fits := by
  obtain ⟨hadmits, halter, hrows⟩ := exec_eq_some.mp hexec
  obtain ⟨c, rows⟩ := d
  obtain ⟨c', rows'⟩ := d'
  cases hrows
  cases st with
  | createTable name t =>
      simp only [Catalog.alter] at halter
      split at halter
      · cases halter
        exact h
      · rename_i htaken
        have hnone : c.table? name = none :=
          Catalog.table?_eq_none_of_not_taken (eq_false_of_ne_true htaken)
        obtain ⟨-, halter⟩ := Option.ite_none_right_eq_some.mp halter
        cases halter
        refine ⟨fun x u hu => ?_, fun x hx => ?_⟩
        · change Catalog.table? _ x = some u at hu
          rw [Catalog.table?_createTable, Option.or_eq_some_iff] at hu
          rcases hu with hu | ⟨-, hu⟩
          · exact h.tables x u hu
          · obtain ⟨rfl, -⟩ := Option.ite_none_right_eq_some.mp hu
            exact .of_nil (h.others name hnone)
        · change Catalog.table? _ x = none at hx
          rw [Catalog.table?_createTable, Option.or_eq_none_iff] at hx
          exact h.others x hx.1
  | createIndex name i =>
      obtain ⟨t, -, halter⟩ := Option.bind_eq_some_iff.mp halter
      split at halter
      · cases halter
        exact h
      · obtain ⟨-, halter⟩ := Option.ite_none_right_eq_some.mp halter
        cases halter
        exact ⟨h.tables, h.others⟩
  | dropIndex name =>
      simp only [Catalog.alter] at halter
      split at halter
      · cases halter
        exact ⟨h.tables, h.others⟩
      · obtain ⟨-, halter⟩ := Option.ite_none_left_eq_some.mp halter
        cases halter
        exact h
  | addColumn table name type =>
      obtain ⟨t, ht, halter⟩ := Option.bind_eq_some_iff.mp halter
      split at halter
      · cases halter
        exact h
      · rename_i hnew
        cases halter
        exact h.setTable ht ((h.tables table t ht).addColumn (eq_false_of_ne_true hnew))
  | dropConstraint table name =>
      obtain ⟨t, ht, halter⟩ := Option.bind_eq_some_iff.mp halter
      cases halter
      exact h.setTable ht (h.tables table t ht).dropConstraint
  | addConstraint table name k =>
      obtain ⟨t, ht, halter⟩ := Option.bind_eq_some_iff.mp halter
      obtain ⟨-, halter⟩ := Option.ite_none_left_eq_some.mp halter
      cases halter
      exact h.setTable ht ((h.tables table t ht).addConstraint hadmits)

theorem Valid.run (h : d.Valid fits) (hrun : d.run script = some d') : d'.Valid fits := by
  induction script generalizing d with
  | nil =>
      cases hrun
      exact h
  | cons st script ih =>
      obtain ⟨u, hu, hrun⟩ := Option.bind_eq_some_iff.mp hrun
      exact ih (h.exec hu) hrun

end Database

end Ddl
