import KirinFS.Foundation.CString
import KirinFS.Foundation.Loops
import Mathlib.Logic.Function.Basic

/-! # Scanning a schema

A scan passes the records to a callback one after another. Every key is
terminated in place, and as many bytes as the target has are compared from the
key on, whatever stands behind it. A search that stops closes the cursor first and
passes the record from where it was.
-/

namespace KirinFS.KvDb
open Foundation.CString Foundation.Loops Function

/-- A `WT_ITEM`: the bytes from `data` on, of which `size` are its own. -/
structure WtItem where
  data : ℕ → UInt8
  size : ℕ

def WtItem.bytes (item : WtItem) : List UInt8 := (List.range item.size).map item.data

/-- The methods that a scan uses of a `WT_CURSOR` with state `κ`. What stood behind a pointer that
it has handed out is after `close` what `closed` says. -/
structure ScanCursor (κ : Type*) where
  next : κ → ℤ × κ
  getKey : κ → ℤ × WtItem
  getValue : κ → ℤ × WtItem
  closed : κ → (ℕ → UInt8) → ℕ → UInt8

/-- What the search relies on: the items outlive their cursor. -/
def Outlives {κ : Type*} (cursor : ScanCursor κ) : Prop := ∀ s mem, cursor.closed s mem = mem

/-- `kv_schmea_func_cb`, with what its pointers lead to. -/
abbrev KvSchmeaFuncCb (γ : Type*) := γ → (key val : ℕ → UInt8) → ℤ × γ

structure Record where
  key : WtItem
  val : WtItem

/-- `key_str` with its terminator. -/
def keyStr (key : WtItem) : ℕ → UInt8 := update key.data key.size 0

/-- `memcmp(mem, dst, n)` for the `n` bytes of `dst`, as a truth value. -/
def memcmp (mem : ℕ → UInt8) (dst : List UInt8) : Bool :=
  decide ((List.range dst.length).map mem ≠ dst)

/-- What a scan leaves: the result, the context and the records passed to the callback. -/
structure Found (γ : Type*) where
  ret : ℤ
  ctx : γ
  calls : List Record

structure ScanState (κ γ : Type*) where
  cursor : κ
  ctx : γ
  calls : List Record

section Search
variable {κ γ : Type*} (cursor : ScanCursor κ) (cb : KvSchmeaFuncCb γ)

/-- The condition of the loop body, for a target that may be null. -/
def stopsAt (dstKey : Option (List UInt8)) (key : WtItem) : Bool :=
  dstKey.any fun dst => decide (0 < dst.length) && memcmp (keyStr key) dst

def searchTurn (dstKey : Option (List UInt8)) (s : ScanState κ γ) :
    Option (ScanState κ γ ⊕ Found γ) :=
  let at' := cursor.next s.cursor
  if at'.1 = 0 then
    let key := cursor.getKey at'.2
    if key.1 ≠ 0 then some (.inr ⟨-1, s.ctx, s.calls⟩)
    else
      let val := cursor.getValue at'.2
      let calls := s.calls ++ [⟨key.2, val.2⟩]
      if stopsAt dstKey key.2 then
        let closed := cursor.closed at'.2
        let r := cb s.ctx (closed (keyStr key.2)) (closed val.2.data)
        some (.inr ⟨r.1, r.2, calls⟩)
      else some (.inl ⟨at'.2, (cb s.ctx (keyStr key.2) val.2.data).2, calls⟩)
  else some (.inr ⟨-1, s.ctx, s.calls⟩)

/-- `kv_schmea_search` with the cursor that `open_cursor` has returned. -/
def kvSchmeaSearch (opened : κ) (ctx : γ) (dstKey : Option (List UInt8)) (fuel : ℕ) :
    Option (Found γ) :=
  loop (searchTurn cursor cb dstKey) fuel ⟨opened, ctx, []⟩

end Search

/-- What is documented of a cursor: it enumerates the records and has the key and the value of
each. -/
def Enumerates {κ : Type*} (cursor : ScanCursor κ) : κ → List Record → Prop
  | s, [] => (cursor.next s).1 ≠ 0
  | s, row :: rows => (cursor.next s).1 = 0 ∧ cursor.getKey (cursor.next s).2 = (0, row.key) ∧
      cursor.getValue (cursor.next s).2 = (0, row.val) ∧ Enumerates cursor (cursor.next s).2 rows

section Scan
variable {γ : Type*} (cb : KvSchmeaFuncCb γ)

def Record.call (row : Record) (ctx : γ) : ℤ × γ := cb ctx (keyStr row.key) row.val.data

def passed : γ → List Record → γ := List.foldl fun ctx row => (row.call cb ctx).2

/-- Records go to the callback up to the first at which the scan stops. -/
def scanUpTo (stop : Record → Prop) [DecidablePred stop] : γ → List Record → Found γ
  | ctx, [] => ⟨-1, ctx, []⟩
  | ctx, row :: rows =>
    let r := row.call cb ctx
    if stop row then ⟨r.1, r.2, [row]⟩
    else
      let later := scanUpTo stop r.2 rows
      ⟨later.ret, later.ctx, row :: later.calls⟩

variable {cb} {stop : Record → Prop} [DecidablePred stop] {ctx : γ} {init rest rows : List Record}
  {row : Record}

theorem scanUpTo_append (h : ∀ a ∈ init, ¬ stop a) : scanUpTo cb stop ctx (init ++ rows) =
    ⟨(scanUpTo cb stop (passed cb ctx init) rows).ret,
      (scanUpTo cb stop (passed cb ctx init) rows).ctx,
      init ++ (scanUpTo cb stop (passed cb ctx init) rows).calls⟩ := by
  induction init generalizing ctx with
  | nil => rfl
  | cons a init ih =>
    rw [List.cons_append, scanUpTo, if_neg (h a List.mem_cons_self),
      ih fun b hb => h b (List.mem_cons_of_mem a hb)]
    rfl

theorem scanUpTo_absent (h : ∀ a ∈ rows, ¬ stop a) :
    scanUpTo cb stop ctx rows = ⟨-1, passed cb ctx rows, rows⟩ := by
  have happend : scanUpTo cb stop ctx (rows ++ []) = _ := scanUpTo_append h
  rwa [List.append_nil, scanUpTo, List.append_nil] at happend

theorem scanUpTo_found (h : ∀ a ∈ init, ¬ stop a) (hrow : stop row) :
    scanUpTo cb stop ctx (init ++ row :: rest) =
      ⟨(row.call cb (passed cb ctx init)).1, (row.call cb (passed cb ctx init)).2,
        init ++ [row]⟩ := by
  rw [scanUpTo_append h, scanUpTo, if_pos hrow]

theorem scanUpTo_calls_eq_nil : (scanUpTo cb stop ctx rows).calls = [] ↔ rows = [] := by
  cases rows with
  | nil => exact iff_of_true rfl rfl
  | cons row rows =>
    rw [scanUpTo]
    split
    · simp
    · simp

/-- Two scans with the same calls and the same result. -/
def Found.Same (r r' : Found γ) : Prop := r.ret = r'.ret ∧ r.calls = r'.calls

theorem scan_same_at {stop' : Record → Prop} [DecidablePred stop']
    (hinit : ∀ a ∈ init, ¬ stop a) (hinit' : ∀ a ∈ init, ¬ stop' a) (hrow : stop row)
    (hrow' : ¬ stop' row) : (scanUpTo cb stop ctx (init ++ row :: rest)).Same
      (scanUpTo cb stop' ctx (init ++ row :: rest)) ↔
        rest = [] ∧ (row.call cb (passed cb ctx init)).1 = -1 := by
  rw [scanUpTo_found hinit hrow, scanUpTo_append hinit', scanUpTo, if_neg hrow', Found.Same]
  simp only [List.append_cancel_left_eq, List.cons.injEq, true_and]
  constructor
  · rintro ⟨hret, hcalls⟩
    obtain rfl := scanUpTo_calls_eq_nil.mp hcalls.symm
    exact ⟨rfl, hret⟩
  · rintro ⟨rfl, hret⟩
    exact ⟨hret, rfl⟩

/-- Two scans that never stop at the same record agree just if the first record at which one of
them stops is the last one, and the callback returns -1 on it. -/
theorem scan_same_iff {stop' : Record → Prop} [DecidablePred stop']
    (hapart : ∀ row, stop row → ¬ stop' row) : (scanUpTo cb stop ctx rows).Same
      (scanUpTo cb stop' ctx rows) ↔ ∀ init row rest, rows = init ++ row :: rest →
        (∀ a ∈ init, ¬ stop a ∧ ¬ stop' a) → stop row ∨ stop' row →
          rest = [] ∧ (row.call cb (passed cb ctx init)).1 = -1 := by
  have hat : ∀ init row rest, rows = init ++ row :: rest → (∀ a ∈ init, ¬ stop a ∧ ¬ stop' a) →
      stop row ∨ stop' row → ((scanUpTo cb stop ctx rows).Same (scanUpTo cb stop' ctx rows) ↔
        rest = [] ∧ (row.call cb (passed cb ctx init)).1 = -1) := by
    rintro init row rest rfl hinit (hrow | hrow')
    · exact scan_same_at (fun a ha => (hinit a ha).1) (fun a ha => (hinit a ha).2) hrow
        (hapart row hrow)
    · rw [← scan_same_at (fun a ha => (hinit a ha).2) (fun a ha => (hinit a ha).1) hrow'
        fun hrow => hapart row hrow hrow', Found.Same, Found.Same, eq_comm,
        eq_comm (a := (scanUpTo cb stop ctx (init ++ row :: rest)).calls)]
  constructor
  · intro hsame init row rest hrows hinit hrow
    exact (hat init row rest hrows hinit hrow).mp hsame
  · intro hall
    cases hfirst : rows.find? fun row => decide (stop row ∨ stop' row) with
    | none =>
      have hnone : ∀ a ∈ rows, ¬ stop a ∧ ¬ stop' a := by
        intro a ha
        have hno := List.find?_eq_none.mp hfirst a ha
        simpa using hno
      rw [scanUpTo_absent fun a ha => (hnone a ha).1, scanUpTo_absent fun a ha => (hnone a ha).2]
      exact ⟨rfl, rfl⟩
    | some row =>
      obtain ⟨hrow, init, rest, hrows, hinit⟩ := List.find?_eq_some_iff_append.mp hfirst
      have hinit' : ∀ a ∈ init, ¬ stop a ∧ ¬ stop' a := by
        intro a ha
        simpa using hinit a ha
      have hrow' := of_decide_eq_true hrow
      exact (hat init row rest hrows hinit' hrow').mpr (hall init row rest hrows hinit' hrow')

end Scan

section Correctness
variable {κ γ : Type*} {cursor : ScanCursor κ} {cb : KvSchmeaFuncCb γ} {s : κ} {ctx : γ}
  {rows calls : List Record} {dstKey : Option (List UInt8)} {dst : List UInt8} {fuel : ℕ}

/-- The loop is a scan up to the first record at which its condition holds. -/
theorem loop_scans (hout : Outlives cursor) (henum : Enumerates cursor s rows) (hfuel : rows.length < fuel) :
    loop (searchTurn cursor cb dstKey) fuel ⟨s, ctx, calls⟩ =
      some ⟨(scanUpTo cb (fun row => stopsAt dstKey row.key) ctx rows).ret,
        (scanUpTo cb (fun row => stopsAt dstKey row.key) ctx rows).ctx,
        calls ++ (scanUpTo cb (fun row => stopsAt dstKey row.key) ctx rows).calls⟩ := by
  induction rows generalizing s ctx calls fuel with
  | nil =>
    obtain ⟨fuel, rfl⟩ := Nat.exists_eq_add_one_of_ne_zero (Nat.ne_zero_of_lt hfuel)
    have hlast : ¬ (cursor.next s).1 = 0 := henum
    rw [loop, searchTurn]
    simp only [hlast, if_false, Option.bind_some, Sum.elim_inr, scanUpTo, List.append_nil]
  | cons row rows ih =>
    obtain ⟨fuel, rfl⟩ := Nat.exists_eq_add_one_of_ne_zero (Nat.ne_zero_of_lt hfuel)
    obtain ⟨hnext, hkey, hval, henum⟩ := henum
    have hrest := @ih _ (row.call cb ctx).2 (calls ++ [row]) _ henum (Nat.lt_of_succ_lt_succ hfuel)
    rw [loop, searchTurn]
    simp only [hnext, if_true, hkey, hval, ne_eq, not_true, if_false, scanUpTo]
    by_cases hstop : stopsAt dstKey row.key
    · simp only [hstop, if_true, Option.bind_some, Sum.elim_inr, hout _ _]
      rfl
    · simp only [hstop, Bool.false_eq_true, if_false, Option.bind_some, Sum.elim_inl]
      rw [List.append_assoc] at hrest
      exact hrest

/-- With a target a search stops at the first record that has it as its key, and returns what the
callback does; if there is none, or no target, all records are passed. -/
structure SearchAnswers (cb : KvSchmeaFuncCb γ) (ctx : γ) (dstKey : Option (List UInt8))
    (rows : List Record) (r : Found γ) : Prop where
  found : ∀ dst ∈ dstKey, ∀ init row rest, rows = init ++ row :: rest → row.key.bytes = dst →
    (∀ a ∈ init, a.key.bytes ≠ dst) →
      r.calls = init ++ [row] ∧ r.ret = (row.call cb (passed cb ctx init)).1
  absent : ∀ dst ∈ dstKey, (∀ row ∈ rows, row.key.bytes ≠ dst) → r.calls = rows ∧ r.ret = -1
  all : dstKey = none → r.calls = rows

theorem searchAnswers_iff {r : Found γ} : SearchAnswers cb ctx (some dst) rows r ↔
    r.Same (scanUpTo cb (fun row => row.key.bytes = dst) ctx rows) := by
  constructor
  · intro h
    cases hfirst : rows.find? fun row => decide (row.key.bytes = dst) with
    | none =>
      have hnone : ∀ a ∈ rows, ¬ a.key.bytes = dst := by
        intro a ha
        simpa using List.find?_eq_none.mp hfirst a ha
      obtain ⟨hcalls, hret⟩ := h.absent dst rfl hnone
      rw [scanUpTo_absent hnone]
      exact ⟨hret, hcalls⟩
    | some row =>
      obtain ⟨hrow, init, rest, hrows, hinit⟩ := List.find?_eq_some_iff_append.mp hfirst
      have hinit' : ∀ a ∈ init, ¬ a.key.bytes = dst := by
        intro a ha
        simpa using hinit a ha
      have hrow' := of_decide_eq_true hrow
      obtain ⟨hcalls, hret⟩ := h.found dst rfl init row rest hrows hrow' hinit'
      rw [hrows, scanUpTo_found hinit' hrow']
      exact ⟨hret, hcalls⟩
  · rintro ⟨hret, hcalls⟩
    refine ⟨?_, ?_, nofun⟩
    · rintro _ ⟨⟩ init row rest rfl hrow hinit
      rw [scanUpTo_found hinit hrow] at hret hcalls
      exact ⟨hcalls, hret⟩
    · rintro _ ⟨⟩ hnone
      rw [scanUpTo_absent hnone] at hret hcalls
      exact ⟨hcalls, hret⟩

/-- `kv_schmea_search` ends, and its result is what it should be. -/
def Searches (cursor : ScanCursor κ) (cb : KvSchmeaFuncCb γ) (opened : κ) (ctx : γ)
    (dstKey : Option (List UInt8)) (rows : List Record) : Prop :=
  ∃ r, (∀ fuel, rows.length < fuel → kvSchmeaSearch cursor cb opened ctx dstKey fuel = some r) ∧
    SearchAnswers cb ctx dstKey rows r

/-- A record that the search goes past, as it should: the bytes from its key on begin with the
target, but the key is another. -/
def Passes (dst : List UInt8) (row : Record) : Prop :=
  stopsAt (some dst) row.key = false ∧ row.key.bytes ≠ dst

theorem stopsAt_target (key : WtItem) : stopsAt (some key.bytes) key = false := by
  have hsame : (List.range key.size).map (keyStr key) = key.bytes := by
    refine List.map_congr_left fun i hi => ?_
    exact update_of_ne (Nat.ne_of_lt (List.mem_range.mp hi)) _ _
  have hlen : key.bytes.length = key.size := by
    rw [WtItem.bytes, List.length_map, List.length_range]
  rw [stopsAt, Option.any_some, memcmp, hlen, hsame]
  simp

/-- A search does what it should just if it has no target, or the first record that it should not
go past or does not, if there is one, is the last, and the callback returns -1 on it. -/
theorem searches_iff (hout : Outlives cursor) (henum : Enumerates cursor s rows) :
    Searches cursor cb s ctx dstKey rows ↔ ∀ dst ∈ dstKey, ∀ init row rest,
      rows = init ++ row :: rest → (∀ a ∈ init, Passes dst a) → ¬ Passes dst row →
        rest = [] ∧ (row.call cb (passed cb ctx init)).1 = -1 := by
  have hrun : ∀ fuel, rows.length < fuel → kvSchmeaSearch cursor cb s ctx dstKey fuel =
      some (scanUpTo cb (fun row => stopsAt dstKey row.key) ctx rows) :=
    fun fuel hfuel => loop_scans hout henum hfuel
  have hsearch : Searches cursor cb s ctx dstKey rows ↔ SearchAnswers cb ctx dstKey rows
      (scanUpTo cb (fun row => stopsAt dstKey row.key) ctx rows) := by
    constructor
    · rintro ⟨r, hr, hanswers⟩
      have heq := (hr _ (Nat.lt_succ_self _)).symm.trans (hrun _ (Nat.lt_succ_self _))
      rwa [Option.some.inj heq] at hanswers
    · exact fun hanswers => ⟨_, hrun, hanswers⟩
  rw [hsearch]
  cases dstKey with
  | none =>
    refine iff_of_true ⟨nofun, nofun, fun _ => ?_⟩ nofun
    have hnever : ∀ a ∈ rows, ¬ stopsAt none a.key = true := fun _ _ => Bool.false_ne_true
    rw [scanUpTo_absent hnever]
  | some dst =>
    have hapart : ∀ row : Record, stopsAt (some dst) row.key = true → ¬ row.key.bytes = dst := by
      rintro row hstop rfl
      rw [stopsAt_target] at hstop
      cases hstop
    have hpass : ∀ row : Record, Passes dst row ↔
        ¬ stopsAt (some dst) row.key = true ∧ ¬ row.key.bytes = dst := by
      intro row
      rw [Passes, Bool.not_eq_true]
    rw [searchAnswers_iff, scan_same_iff hapart]
    simp only [Option.mem_def, Option.some.injEq, forall_eq', hpass, not_and_or, not_not]

section Examples

def item (bytes : List UInt8) : WtItem := ⟨fun i => bytes.getD i 0, bytes.length⟩

/-- A cursor over a list of records: the one it is at, and the ones to come. -/
def listCursor : ScanCursor (Option Record × List Record) where
  next
    | (at', []) => (-31803, at', [])
    | (_, row :: rows) => (0, some row, rows)
  getKey s := s.1.elim (-1, item []) fun row => (0, row.key)
  getValue s := s.1.elim (-1, item []) fun row => (0, row.val)
  closed _ mem := mem

theorem enumerates_listCursor (at' : Option Record) (rows : List Record) :
    Enumerates listCursor (at', rows) rows := by
  induction rows generalizing at' with
  | nil => exact (by decide : (-31803 : ℤ) ≠ 0)
  | cons row rows ih => exact ⟨rfl, rfl, rfl, ih (some row)⟩

def recordOf (key : List UInt8) : Record := ⟨item key, item [1]⟩

/-- The keys 2 1 and 3, the target 2, and a callback that returns -1. -/
theorem searches_extension : Searches listCursor (fun ctx _ _ => (-1, ctx))
    (none, [recordOf [2, 1], recordOf [3]]) () (some [2]) [recordOf [2, 1], recordOf [3]] := by
  refine (searches_iff (fun _ _ => rfl) (enumerates_listCursor none _)).mpr ?_
  rintro _ ⟨⟩ init row rest hrows - hrow
  have hfirst : Passes [2] (recordOf [2, 1]) := ⟨by decide, by decide⟩
  rcases init with _ | ⟨a, _ | ⟨b, init⟩⟩
  · obtain ⟨rfl, -⟩ := List.cons.inj hrows
    exact absurd hfirst hrow
  · obtain ⟨-, hrest⟩ := List.cons.inj hrows
    exact ⟨(List.cons.inj hrest).2.symm, rfl⟩
  · have hlen := congrArg List.length hrows
    simp at hlen

/-- The keys 1 and 2, and the target 2: the search stops at 1. -/
theorem not_searches_second : Enumerates listCursor (none, [recordOf [1], recordOf [2]])
      [recordOf [1], recordOf [2]] ∧
    ¬ Searches listCursor (fun ctx _ _ => (0, ctx)) (none, [recordOf [1], recordOf [2]]) ()
      (some [2]) [recordOf [1], recordOf [2]] := by
  refine ⟨enumerates_listCursor none _, ?_⟩
  rintro ⟨r, hr, hanswers⟩
  obtain ⟨hcalls, -⟩ := hanswers.found [2] rfl [recordOf [1]] (recordOf [2]) [] rfl (by decide)
    (by decide)
  obtain rfl := Option.some.inj (hr 3 (by decide))
  exact absurd (congrArg List.length hcalls) (by decide)

end Examples

end Correctness

end KirinFS.KvDb
