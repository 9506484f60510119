import KirinFS.Foundation.CString
import KirinFS.Foundation.Simulation
import Mathlib.Logic.Function.Basic

/-! # The key-value layer over WiredTiger cursors

Every schema has one cursor, through which all its operations go. The cursor's
methods and the registry of schemas are parameters; an item, that is a pointer
with a size, is the bytes it covers.
-/

namespace KirinFS.KvDb
open Foundation.CString Foundation.Simulation

/-- The methods of a `WT_CURSOR` with state `σ`. -/
structure WtCursor (σ : Type*) where
  setKey : σ → Str → σ
  setValue : σ → Str → σ
  insert : σ → ℤ × σ
  search : σ → ℤ × σ
  remove : σ → ℤ × σ
  getValue : σ → Str

/-- What is documented of a cursor: an overwriting map with a place for a key and a value. -/
structure Overwriting {σ : Type*} (c : WtCursor σ) (rows : σ → Str → Option Str)
    (key value : σ → Option Str) : Prop where
  setKey_key : ∀ s k, key (c.setKey s k) = some k
  setKey_rows : ∀ s k, rows (c.setKey s k) = rows s
  setValue_value : ∀ s v, value (c.setValue s v) = some v
  setValue_key : ∀ s v, key (c.setValue s v) = key s
  setValue_rows : ∀ s v, rows (c.setValue s v) = rows s
  insert_ok : ∀ s k v, key s = some k → value s = some v → (c.insert s).1 = 0
  insert_rows : ∀ s k v, key s = some k → value s = some v →
    rows (c.insert s).2 = Function.update (rows s) k (some v)
  search_ok : ∀ s k, key s = some k → ((c.search s).1 = 0 ↔ (rows s k).isSome = true)
  search_rows : ∀ s, rows (c.search s).2 = rows s
  search_value : ∀ s k v, key s = some k → rows s k = some v → c.getValue (c.search s).2 = v
  remove_rows : ∀ s k, key s = some k → rows (c.remove s).2 = Function.update (rows s) k none

/-- The part of a `kv_schema_t` that the operations depend on: its table, and where its cursor is. -/
structure KvSchema where
  uri : Str
  cursor : ℕ

/-- The name of the table of a schema, cut to the buffer of `kv_schema_alloc`. -/
def tableUri (schemaName : Str) : Str :=
  ([chr 't', chr 'a', chr 'b', chr 'l', chr 'e', chr ':'] ++ schemaName).take 255

/-- What `kv_schema_alloc` has registered. A cursor is open on one table. Two schemas whose names
are cut to the same would share theirs; here the tables differ. -/
structure Registry where
  dictGet : Str → Option KvSchema
  uri_eq : ∀ n s, dictGet n = some s → s.uri = tableUri n
  opened : ∀ n n' s s', dictGet n = some s → dictGet n' = some s' → s.cursor = s'.cursor →
    s.uri = s'.uri
  differ : ∀ n n', (dictGet n).isSome = true → (dictGet n').isSome = true →
    tableUri n = tableUri n' → n = n'

theorem Registry.own (reg : Registry) {n n' : Str} {s s' : KvSchema} (hn : reg.dictGet n = some s)
    (hn' : reg.dictGet n' = some s') (h : s.cursor = s'.cursor) : n = n' := by
  have huri := reg.opened n n' s s' hn hn' h
  rw [reg.uri_eq n s hn, reg.uri_eq n' s' hn'] at huri
  exact reg.differ n n' (by rw [hn, Option.isSome_some]) (by rw [hn', Option.isSome_some]) huri

section Operations
variable {σ : Type*} (c : WtCursor σ) (reg : Registry) (cursors : ℕ → σ)

def kvDbSet (schemaName key val : Str) : (ℕ → σ) × ℤ :=
  match reg.dictGet schemaName with
  | some schema =>
    let r := c.insert (c.setValue (c.setKey (cursors schema.cursor) key) val)
    (Function.update cursors schema.cursor r.2, r.1)
  | none => (cursors, -1)

def kvDbSearch (schemaName key : Str) : (ℕ → σ) × ℤ :=
  match reg.dictGet schemaName with
  | some schema =>
    let r := c.search (c.setKey (cursors schema.cursor) key)
    (Function.update cursors schema.cursor r.2, r.1)
  | none => (cursors, -1)

def kvDbGet (schemaName key : Str) : (ℕ → σ) × Option Str :=
  match reg.dictGet schemaName with
  | some schema =>
    let r := c.search (c.setKey (cursors schema.cursor) key)
    (Function.update cursors schema.cursor r.2, if r.1 ≠ 0 then none else some (c.getValue r.2))
  | none => (cursors, none)

/-- The schema is not compared with `NULL` before its cursor is read. -/
def kvDbDel (schemaName key : Str) : Option ((ℕ → σ) × ℤ) :=
  (reg.dictGet schemaName).map fun schema =>
    let r := c.remove (c.setKey (cursors schema.cursor) key)
    (Function.update cursors schema.cursor r.2, r.1)

end Operations

inductive Op
  | set (schemaName key val : Str)
  | search (schemaName key : Str)
  | get (schemaName key : Str)
  | del (schemaName key : Str)

inductive Reply
  | code (r : ℤ)
  | value (v : Option Str)

/-- One call; `none` for a read through a null pointer. -/
def step {σ : Type*} (c : WtCursor σ) (reg : Registry) (cursors : ℕ → σ) :
    Op → Option ((ℕ → σ) × Reply)
  | .set n k v => some ((kvDbSet c reg cursors n k v).1, .code (kvDbSet c reg cursors n k v).2)
  | .search n k => some ((kvDbSearch c reg cursors n k).1, .code (kvDbSearch c reg cursors n k).2)
  | .get n k => some ((kvDbGet c reg cursors n k).1, .value (kvDbGet c reg cursors n k).2)
  | .del n k => (kvDbDel c reg cursors n k).map fun p => (p.1, .code p.2)

/-- The purpose of the layer: a map for each registered schema. -/
abbrev Tables := Str → Option (Str → Option Str)

def put (t : Tables) (n k : Str) (v : Option Str) : Tables :=
  Function.update t n ((t n).map fun rows => Function.update rows k v)

def after (t : Tables) : Op → Tables
  | .set n k v => put t n k (some v)
  | .search _ _ => t
  | .get _ _ => t
  | .del n k => put t n k none

/-- The replies the map allows; what `kv_db_del` returns for a registered schema is left open. -/
def Answers (t : Tables) : Op → Reply → Prop
  | .set n _ _, .code r => if (t n).isSome then r = 0 else r < 0
  | .search n k, .code r =>
    match t n with
    | some rows => r = 0 ↔ (rows k).isSome = true
    | none => r < 0
  | .get n k, .value v => v = (t n).bind fun rows => rows k
  | .del n _, .code r => (t n).isSome = true ∨ r < 0
  | _, _ => False

section Layer
variable {σ : Type*} {c : WtCursor σ} {reg : Registry} {rows : σ → Str → Option Str}
  {key value : σ → Option Str} {cursors : ℕ → σ} {n k v : Str} {schema : KvSchema}

def tables (reg : Registry) (rows : σ → Str → Option Str) (cursors : ℕ → σ) : Tables := fun n =>
  (reg.dictGet n).map fun schema => rows (cursors schema.cursor)

theorem tables_some (hn : reg.dictGet n = some schema) :
    tables reg rows cursors n = some (rows (cursors schema.cursor)) := by
  rw [tables, hn, Option.map_some]

theorem tables_none (hn : reg.dictGet n = none) : tables reg rows cursors n = none := by
  rw [tables, hn, Option.map_none]

/-- A new state of one schema's cursor changes the rows of that schema only. -/
theorem tables_update (hn : reg.dictGet n = some schema) (s : σ) :
    tables reg rows (Function.update cursors schema.cursor s) =
      Function.update (tables reg rows cursors) n (some (rows s)) := by
  funext m
  by_cases hm : m = n
  · subst hm
    rw [Function.update_self, tables_some hn, Function.update_self]
  · rw [Function.update_of_ne hm]
    cases hreg : reg.dictGet m with
    | none => rw [tables_none hreg, tables_none hreg]
    | some schema' =>
      have hne : schema'.cursor ≠ schema.cursor := fun h => hm (reg.own hreg hn h)
      rw [tables_some hreg, tables_some hreg, Function.update_of_ne hne]

theorem tables_put (hn : reg.dictGet n = some schema) {s : σ} {w : Option Str}
    (hs : rows s = Function.update (rows (cursors schema.cursor)) k w) :
    tables reg rows (Function.update cursors schema.cursor s) =
      put (tables reg rows cursors) n k w := by
  rw [tables_update hn, put, tables_some hn, Option.map_some, hs]

theorem tables_same (hn : reg.dictGet n = some schema) {s : σ}
    (hs : rows s = rows (cursors schema.cursor)) :
    tables reg rows (Function.update cursors schema.cursor s) = tables reg rows cursors := by
  rw [tables_update hn, hs, ← tables_some hn, Function.update_eq_self]

theorem put_unregistered {t : Tables} (hn : t n = none) (k : Str) (w : Option Str) :
    put t n k w = t := by
  rw [put, hn, Option.map_none, ← hn, Function.update_eq_self]

variable (hc : Overwriting c rows key value)
include hc

theorem kvDbSet_spec (n k v : Str) :
    tables reg rows (kvDbSet c reg cursors n k v).1 = put (tables reg rows cursors) n k (some v) ∧
      Answers (tables reg rows cursors) (.set n k v) (.code (kvDbSet c reg cursors n k v).2) := by
  cases hn : reg.dictGet n with
  | none =>
    simp only [kvDbSet, hn, Answers, tables_none hn]
    exact ⟨(put_unregistered (tables_none hn) k _).symm, by decide⟩
  | some schema =>
    have hkey : key (c.setValue (c.setKey (cursors schema.cursor) k) v) = some k := by
      rw [hc.setValue_key, hc.setKey_key]
    have hrows := hc.insert_rows _ k v hkey (hc.setValue_value _ v)
    rw [hc.setValue_rows, hc.setKey_rows] at hrows
    simp only [kvDbSet, hn, Answers, tables_some hn]
    exact ⟨tables_put hn hrows, hc.insert_ok _ k v hkey (hc.setValue_value _ v)⟩

theorem kvDbSearch_spec (n k : Str) :
    tables reg rows (kvDbSearch c reg cursors n k).1 = tables reg rows cursors ∧
      Answers (tables reg rows cursors) (.search n k) (.code (kvDbSearch c reg cursors n k).2) := by
  cases hn : reg.dictGet n with
  | none =>
    simp only [kvDbSearch, hn, Answers, tables_none hn]
    exact ⟨trivial, by decide⟩
  | some schema =>
    have hok := hc.search_ok _ k (hc.setKey_key (cursors schema.cursor) k)
    rw [hc.setKey_rows] at hok
    have hrows := hc.search_rows (c.setKey (cursors schema.cursor) k)
    rw [hc.setKey_rows] at hrows
    simp only [kvDbSearch, hn, Answers, tables_some hn]
    exact ⟨tables_same hn hrows, hok⟩

theorem kvDbGet_spec (n k : Str) :
    tables reg rows (kvDbGet c reg cursors n k).1 = tables reg rows cursors ∧
      Answers (tables reg rows cursors) (.get n k) (.value (kvDbGet c reg cursors n k).2) := by
  cases hn : reg.dictGet n with
  | none =>
    simp only [kvDbGet, hn, Answers, tables_none hn]
    exact ⟨trivial, rfl⟩
  | some schema =>
    have hkey := hc.setKey_key (cursors schema.cursor) k
    have hsame := hc.setKey_rows (cursors schema.cursor) k
    have hrows := (hc.search_rows (c.setKey (cursors schema.cursor) k)).trans hsame
    have hok := hc.search_ok _ k hkey
    simp only [kvDbGet, hn, Answers, tables_some hn, Option.bind_some]
    refine ⟨tables_same hn hrows, ?_⟩
    rw [← hsame]
    cases hval : rows (c.setKey (cursors schema.cursor) k) k with
    | none =>
      rw [hval] at hok
      exact if_pos fun h => Bool.false_ne_true (hok.mp h)
    | some v =>
      rw [hval] at hok
      rw [if_neg (not_not_intro (hok.mpr rfl)), hc.search_value _ k v hkey hval]

theorem kvDbDel_spec (hn : reg.dictGet n = some schema) (k : Str) :
    ∃ p, kvDbDel c reg cursors n k = some p ∧
      tables reg rows p.1 = put (tables reg rows cursors) n k none := by
  refine ⟨_, by rw [kvDbDel, hn, Option.map_some], ?_⟩
  have hrows := hc.remove_rows _ k (hc.setKey_key (cursors schema.cursor) k)
  rw [hc.setKey_rows] at hrows
  exact tables_put hn hrows

/-- The operations that may be called: no `kv_db_del` of a schema that is not registered. -/
def Admissible (reg : Registry) : Op → Prop
  | .del n _ => (reg.dictGet n).isSome = true
  | _ => True

theorem step_refines : Refines (step c reg) after Answers (fun cursors t => tables reg rows cursors = t)
    (Admissible reg) := by
  rintro cursors _ o rfl ho
  cases o with
  | set n k v =>
    obtain ⟨hput, hans⟩ := @kvDbSet_spec _ _ reg _ _ _ cursors hc n k v
    exact ⟨_, _, rfl, hans, hput⟩
  | search n k =>
    obtain ⟨hsame, hans⟩ := @kvDbSearch_spec _ _ reg _ _ _ cursors hc n k
    exact ⟨_, _, rfl, hans, hsame⟩
  | get n k =>
    obtain ⟨hsame, hans⟩ := @kvDbGet_spec _ _ reg _ _ _ cursors hc n k
    exact ⟨_, _, rfl, hans, hsame⟩
  | del n k =>
    obtain ⟨schema, hn⟩ := Option.isSome_iff_exists.mp ho
    obtain ⟨p, hdel, hput⟩ := @kvDbDel_spec _ _ reg _ _ _ cursors n schema hc hn k
    refine ⟨p.1, .code p.2, by rw [step, hdel, Option.map_some], ?_, hput⟩
    exact Or.inl (by rw [tables_some hn, Option.isSome_some])

omit hc in
theorem step_del_unregistered (hn : reg.dictGet n = none) (k : Str) (cursors : ℕ → σ) :
    step c reg cursors (.del n k) = none := by
  rw [step, kvDbDel, hn, Option.map_none, Option.map_none]

/-- Every run behaves as the map exactly when it deletes from registered schemas only. -/
theorem map_iff_registered (os : List Op) :
    (∃ cursors' rs, runs (step c reg) cursors os = some (cursors', rs) ∧
        Conforms after Answers (tables reg rows cursors) os rs ∧
        tables reg rows cursors' = os.foldl after (tables reg rows cursors)) ↔
      ∀ n k, Op.del n k ∈ os → (reg.dictGet n).isSome = true := by
  constructor
  · rintro ⟨cursors', rs, hrun, -⟩ n k hmem
    cases hn : reg.dictGet n with
    | some schema => rfl
    | none =>
      rw [runs_stuck hmem (step_del_unregistered hn k)] at hrun
      cases hrun
  · intro hdel
    refine (step_refines hc).runs rfl fun o ho => ?_
    cases o with
    | del n k => exact hdel n k ho
    | set n k v => trivial
    | search n k => trivial
    | get n k => trivial

end Layer

structure MapCursor where
  rows : Str → Option Str
  key : Option Str
  value : Option Str

def mapCursor : WtCursor MapCursor where
  setKey s k := { s with key := some k }
  setValue s v := { s with value := some v }
  insert s := (0, { s with rows := Function.update s.rows (s.key.getD []) s.value })
  search s := (if (s.rows (s.key.getD [])).isSome then 0 else -31803, s)
  remove s := (0, { s with rows := Function.update s.rows (s.key.getD []) none })
  getValue s := (s.rows (s.key.getD [])).getD []

theorem mapCursor_overwriting :
    Overwriting mapCursor MapCursor.rows MapCursor.key MapCursor.value where
  setKey_key _ _ := rfl
  setKey_rows _ _ := rfl
  setValue_value _ _ := rfl
  setValue_key _ _ := rfl
  setValue_rows _ _ := rfl
  insert_ok _ _ _ _ _ := rfl
  insert_rows s k v hk hv := by simp only [mapCursor, hk, hv, Option.getD_some]
  search_ok s k hk := by
    simp only [mapCursor, hk, Option.getD_some]
    cases s.rows k <;> simp
  search_rows _ := rfl
  search_value s k v hk hv := by simp only [mapCursor, hk, hv, Option.getD_some]
  remove_rows s k hk := by simp only [mapCursor, hk, Option.getD_some]

def twoGet (n : Str) : Option KvSchema :=
  if n = [chr 'a'] then some ⟨tableUri n, 0⟩
  else if n = [chr 'b'] then some ⟨tableUri n, 1⟩ else none

theorem twoGet_some {n : Str} {s : KvSchema} (h : twoGet n = some s) :
    (n = [chr 'a'] ∧ s = ⟨tableUri [chr 'a'], 0⟩) ∨ (n = [chr 'b'] ∧ s = ⟨tableUri [chr 'b'], 1⟩) := by
  rw [twoGet] at h
  split at h
  · next ha => exact Or.inl ⟨ha, by rw [← Option.some.inj h, ha]⟩
  · rw [Option.ite_none_right_eq_some] at h
    obtain ⟨hb, h⟩ := h
    exact Or.inr ⟨hb, by rw [← Option.some.inj h, hb]⟩

def twoSchemas : Registry where
  dictGet := twoGet
  uri_eq n s h := by
    obtain ⟨rfl, rfl⟩ | ⟨rfl, rfl⟩ := twoGet_some h <;> rfl
  opened n n' s s' h h' hc := by
    obtain ⟨rfl, rfl⟩ | ⟨rfl, rfl⟩ := twoGet_some h <;>
      obtain ⟨rfl, rfl⟩ | ⟨rfl, rfl⟩ := twoGet_some h'
    · rfl
    · exact absurd hc (by decide)
    · exact absurd hc (by decide)
    · rfl
  differ n n' h h' huri := by
    obtain ⟨s, h⟩ := Option.isSome_iff_exists.mp h
    obtain ⟨s', h'⟩ := Option.isSome_iff_exists.mp h'
    obtain ⟨rfl, -⟩ | ⟨rfl, -⟩ := twoGet_some h <;> obtain ⟨rfl, -⟩ | ⟨rfl, -⟩ := twoGet_some h'
    · rfl
    · exact absurd huri (by decide)
    · exact absurd huri (by decide)
    · rfl

def emptyCursors : ℕ → MapCursor := fun _ => ⟨fun _ => none, none, none⟩

/-- One key in both schemas is deleted from the first, and a third schema is searched. -/
def twoSchemasRun : List Op :=
  [.set [chr 'a'] [1] [2], .set [chr 'b'] [1] [3], .del [chr 'a'] [1], .get [chr 'b'] [1],
    .search [chr 'a'] [1], .search [chr 'c'] [1]]

theorem map_iff_registered_two :
    ∃ cursors' rs, runs (step mapCursor twoSchemas) emptyCursors twoSchemasRun =
          some (cursors', rs) ∧
        Conforms after Answers (tables twoSchemas MapCursor.rows emptyCursors) twoSchemasRun rs ∧
        tables twoSchemas MapCursor.rows cursors' =
          twoSchemasRun.foldl after (tables twoSchemas MapCursor.rows emptyCursors) := by
  refine (map_iff_registered mapCursor_overwriting twoSchemasRun).mpr ?_
  intro n k hmem
  have ha : n = [chr 'a'] ∧ k = [1] := by simpa [twoSchemasRun] using hmem
  rw [ha.1]
  rfl

/-- Deleting from a schema that was never registered reads through a null pointer. -/
theorem del_unregistered_undefined :
    runs (step mapCursor twoSchemas) emptyCursors [.del [chr 'c'] [1]] = none := rfl

end KirinFS.KvDb
