import DucklingDB.Mvcc.Summary
import DucklingDB.Sql.Paths

/-!
# Concurrent updates

Two `UPDATE` statements of one row. Each of them reads the row with `MVCCGet` and then proposes a
put of the whole row, with its own columns changed; the timestamps of the read and of the put are
drawn from the clock one after the other, and nothing connects the two. A schedule says which
statement makes its next step.

The put fails if there is a version at or above its timestamp, but not because the row has changed
since it was read. So the statement that writes last undoes what the other one did unless it read
the row after that, at a timestamp that is not below that of the put (`updates_kept_iff`).
-/

namespace DucklingDB.Sql

open Hlc Mvcc KvServer SortedMap List Option AList
open Function (update update_of_ne update_self)

section Rows

variable [GoLibrary] {cols : List Column}

/-! ## Rows -/

/-- The value that `SET` gives to a column. -/
def assigned : List (Bytes × Expr) → Bytes → Option Datum
  | [], _ => none
  | (col, expr) :: exprs, c =>
    (assigned exprs c).or (if c = col then (exprToValue expr).toOption else none)

theorem lookup_setColumns {exprs : List (Bytes × Expr)} {row row' : Row}
    (h : setColumns exprs row = .ok row') (c : Bytes) :
    row'.lookup c = (assigned exprs c).or (row.lookup c) := by
  induction exprs generalizing row with
  | nil =>
    cases h
    rfl
  | cons x exprs ih =>
    obtain ⟨col, expr⟩ := x
    rw [setColumns] at h
    split at h
    · cases h
    · rename_i val hval
      rw [ih h, assigned, hval, Option.or_assoc]
      congr 1
      by_cases hc : c = col
      · rw [if_pos hc, hc, lookup_insert]
        rfl
      · rw [if_neg hc, lookup_insert_ne hc, none_or]

/-- A column of the table that is not the primary key. -/
def NonKey (cols : List Column) (c : Bytes) : Prop :=
  ∃ col ∈ cols, col.name = c ∧ col.primaryKey = false

omit [GoLibrary] in
theorem lookup_storedColumns_concat (cols : List Column) (col : Column) (row : Row) (c : Bytes) :
    (storedColumns (cols ++ [col]) row).lookup c = if col.name = c ∧ col.primaryKey = false then
        (row.lookup c).or ((storedColumns cols row).lookup c)
      else (storedColumns cols row).lookup c := by
  rw [storedColumns, foldl_append, foldl_cons, foldl_nil]
  cases hkey : col.primaryKey with
  | true => rw [if_pos rfl, if_neg fun h ↦ by simp at h, storedColumns]
  | false =>
    rw [if_neg Bool.false_ne_true]
    by_cases hc : col.name = c
    · subst hc
      rw [if_pos ⟨rfl, rfl⟩]
      cases hrow : row.lookup col.name with
      | none => rw [none_or, storedColumns]
      | some v => rw [lookup_insert, some_or]
    · rw [if_neg fun h ↦ hc h.1]
      cases hrow : row.lookup col.name with
      | none => rw [storedColumns]
      | some v => rw [lookup_insert_ne (Ne.symm hc), storedColumns]

omit [GoLibrary] in
theorem lookup_storedColumns (cols : List Column) (row : Row) (c : Bytes) :
    NonKey cols c ∧ (storedColumns cols row).lookup c = row.lookup c ∨
      ¬ NonKey cols c ∧ (storedColumns cols row).lookup c = none := by
  induction cols using List.reverseRecOn with
  | nil => exact .inr ⟨fun ⟨_, h, _⟩ ↦ absurd h not_mem_nil, rfl⟩
  | append_singleton cols col ih =>
    rw [lookup_storedColumns_concat]
    by_cases hcol : col.name = c ∧ col.primaryKey = false
    · rw [if_pos hcol]
      refine .inl ⟨⟨col, mem_append_right _ (mem_singleton_self col), hcol⟩, ?_⟩
      rcases ih with ⟨-, h⟩ | ⟨-, h⟩
      · rw [h, Option.or_self]
      · rw [h, or_none]
    · rw [if_neg hcol]
      refine ih.imp (fun ⟨⟨col', hmem, hcol'⟩, h⟩ ↦ ⟨⟨col', mem_append_left _ hmem, hcol'⟩, h⟩)
        fun ⟨hno, h⟩ ↦ ⟨fun ⟨col', hmem, hcol'⟩ ↦ ?_, h⟩
      rcases mem_append.mp hmem with hmem | hmem
      · exact hno ⟨col', hmem, hcol'⟩
      · exact hcol (mem_singleton.mp hmem ▸ hcol')

/-- The names of the columns are UTF-8, as they are in a schema that has been decoded. -/
def Named (cols : List Column) : Prop := ∀ col ∈ cols, GoLibrary.validUTF8 col.name = true

theorem decode_encodeRowValue (hcols : Named cols) {row : Row} {val : Bytes}
    (h : encodeRowValue cols row = .ok val) : ∃ row', decodeRowValue val = .ok row' ∧
      ∀ c, NonKey cols c → row'.lookup c = (row.lookup c).map GoLibrary.stored := by
  have hnames : ∀ c ∈ storedColumns cols row, GoLibrary.validUTF8 c = true := by
    intro c hc
    rcases lookup_storedColumns cols row c with ⟨⟨col, hcol, rfl, -⟩, -⟩ | ⟨-, hnone⟩
    · exact hcols col hcol
    · exact absurd hc (AList.lookup_eq_none.mp hnone)
  rw [encodeRowValue] at h
  cases hm : GoLibrary.marshalRow (storedColumns cols row) with
  | none =>
    rw [hm] at h
    cases h
  | some b =>
    rw [hm, elim_some] at h
    obtain rfl := Except.ok.inj h
    obtain ⟨row', hrow', hlookup⟩ := GoLibrary.unmarshal_marshalRow hm hnames
    refine ⟨row', by rw [decodeRowValue, hrow']; rfl, fun c hc ↦ ?_⟩
    rcases lookup_storedColumns cols row c with ⟨-, hstored⟩ | ⟨hno, -⟩
    · rw [hlookup c, hstored]
    · exact absurd hc hno

section UpdatedRow

variable [MetadataCodec] {e : Engine} {schema : TableSchema} {key val : Bytes} {ts : Timestamp}
  {exprs : List (Bytes × Expr)}

/-- The row that is read at a timestamp. -/
def RowAt (e : Engine) (key : Bytes) (ts : Timestamp) (row : Row) : Prop :=
  ∃ val, mvccGet e key ts {} = .ok val ∧ decodeRowValue val = .ok row

theorem RowAt.unique {row row' : Row} (h : RowAt e key ts row) (h' : RowAt e key ts row') :
    row = row' := by
  obtain ⟨val, hget, hdec⟩ := h
  obtain ⟨val', hget', hdec'⟩ := h'
  obtain rfl : val = val' := Except.ok.inj (hget.symm.trans hget')
  exact Except.ok.inj (hdec.symm.trans hdec')

/-- **What an `UPDATE` makes of the row it reads**: the columns it sets, and the others as they
were. -/
theorem updatedRow_spec (hcols : Named schema.columns)
    (h : updatedRow e schema key ts exprs = .ok (some val)) :
    ∃ row row', RowAt e key ts row ∧ decodeRowValue val = .ok row' ∧
      ∀ c, NonKey schema.columns c → row'.lookup c =
        ((assigned exprs c).or (row.lookup c)).map GoLibrary.stored := by
  rw [updatedRow] at h
  split at h
  · cases h
  · rename_i existing hget
    split at h
    · cases h
    · rename_i row hrow
      split at h
      · cases h
      · rename_i set hset
        cases henc : encodeRowValue schema.columns set with
        | error err =>
          rw [henc] at h
          exact absurd h (by simp [Except.map])
        | ok b =>
          rw [henc] at h
          obtain rfl : b = val := Option.some.inj (Except.ok.inj h)
          obtain ⟨row', hdec, hlookup⟩ := decode_encodeRowValue hcols henc
          refine ⟨row, row', ⟨existing, hget, hrow⟩, hdec, fun c hc ↦ ?_⟩
          rw [hlookup c hc, lookup_setColumns hset]

end UpdatedRow

end Rows

theorem eq_ok_of_written {e : Engine} {r : Except MVCCError Engine} (h : (written e r).2 = none) :
    r = .ok (written e r).1 := by
  cases r with
  | error err => exact absurd h (by simp [written])
  | ok e' => rfl

/-! ## Two statements -/

section Updates

variable [MetadataCodec] [GoLibrary]

/-- Two `UPDATE` statements of the row at `key`, with the timestamps they draw. -/
structure Updates where
  schema : TableSchema
  key : Bytes
  exprs : Bool → List (Bytes × Expr)
  ts : Bool → Timestamp
  newTs : Bool → Timestamp

/-- How far a statement is: it has yet to read the row, or to write it, or has returned. -/
inductive Phase where
  | start
  | read (valBytes : Bytes)
  | done (res : Except SqlError Result)
  deriving DecidableEq

structure UpdatesState where
  engine : Engine
  phase : Bool → Phase := fun _ ↦ .start
  /-- Whether a statement read the row after the other one had returned. -/
  after : Bool → Bool := fun _ ↦ false

/-- Whether a statement has returned. -/
def Phase.isDone : Phase → Bool
  | .done _ => true
  | _ => false

/-- Where the read of a statement leads. -/
def Phase.ofRead : Except SqlError (Option Bytes) → Phase
  | .error err => .done (.error err)
  | .ok none => .done (.ok ⟨0, "UPDATE 0"⟩)
  | .ok (some valBytes) => .read valBytes

/-- What a statement returns when its write has ended. -/
def Phase.ofWrite : Option MVCCError → Phase
  | some err => .done (.error (.kv err))
  | none => .done (.ok ⟨1, "UPDATE 1"⟩)

namespace Updates

/-- The next step of a statement. -/
def step (u : Updates) (s : UpdatesState) (b : Bool) : UpdatesState :=
  match s.phase b with
  | .start =>
    { s with
      phase := Function.update s.phase b
        (.ofRead (updatedRow s.engine u.schema u.key (u.ts b) (u.exprs b)))
      after := Function.update s.after b (s.phase !b).isDone }
  | .read valBytes =>
    let w := handlerSender s.engine ⟨u.newTs b, [.put u.key (some valBytes)]⟩
    { s with engine := w.1, phase := Function.update s.phase b (.ofWrite w.2) }
  | .done _ => s

/-- A schedule: which statement makes its next step. -/
def run (u : Updates) (e : Engine) (schedule : List Bool) : UpdatesState :=
  schedule.foldl u.step { engine := e }

variable {u : Updates} {e : Engine} {s : UpdatesState} {a b : Bool} {res : Except SqlError Result}

theorem step_start (h : s.phase b = .start) : u.step s b = { s with
      phase := update s.phase b (.ofRead (updatedRow s.engine u.schema u.key (u.ts b) (u.exprs b)))
      after := update s.after b (s.phase !b).isDone } := by
  rw [step, h]

theorem step_read {val : Bytes} (h : s.phase b = .read val) : u.step s b = { s with
      engine := (written s.engine (mvccPut s.engine u.key (u.newTs b) val none)).1
      phase := update s.phase b
        (.ofWrite (written s.engine (mvccPut s.engine u.key (u.newTs b) val none)).2) } := by
  rw [step, h]
  dsimp only
  rw [handlerSender_put]

theorem step_done (h : s.phase b = .done res) : u.step s b = s := by
  rw [step, h]

/-- A statement on its own is `execUpdate`, with the timestamps that the clock gives. -/
theorem run_alone [SchemaCodec] (e : Engine) (clock : Clock) (table : TableExpr)
    (cond : Option Expr) (hkey : whereKey e table cond = .ok (u.schema, u.key))
    (hts : u.ts b = clock.now.1)
    (hnew : u.newTs b = clock.now.2.now.1) :
    (execUpdate (some handlerSender) e clock table cond (u.exprs b)).1 = (u.run e [b, b]).engine ∧
      (u.run e [b, b]).phase b =
        .done (execUpdate (some handlerSender) e clock table cond (u.exprs b)).2.2 := by
  have hrun : u.run e [b, b] = u.step (u.step { engine := e } b) b := rfl
  have hself : ∀ p : Phase, update (fun _ ↦ Phase.start) b p b = p := fun p ↦ update_self ..
  rw [hrun, step_start (s := { engine := e }) rfl, execUpdate, hkey]
  dsimp only
  rw [← hts]
  cases updatedRow e u.schema u.key (u.ts b) (u.exprs b) with
  | error err =>
    rw [step_done (hself (.done (.error err)))]
    exact ⟨rfl, hself _⟩
  | ok row =>
    cases row with
    | none =>
      rw [step_done (hself (.done (.ok ⟨0, "UPDATE 0"⟩)))]
      exact ⟨rfl, hself _⟩
    | some val =>
      rw [step_read (hself (.read val))]
      dsimp only
      rw [handlerSender_put, ← hnew]
      refine ⟨rfl, (update_self ..).trans ?_⟩
      cases mvccPut e u.key (u.newTs b) val none <;> rfl

/-- The statement makes `val` of the row it reads in `e`. -/
def Reads (u : Updates) (e : Engine) (b : Bool) (val : Bytes) : Prop :=
  updatedRow e u.schema u.key (u.ts b) (u.exprs b) = .ok (some val)

/-- The statement has read nothing but `e`, if it has read at all, and has not written. -/
def Waiting (u : Updates) (e : Engine) (s : UpdatesState) (b : Bool) : Prop :=
  s.phase b = .start ∨ ∃ val, s.phase b = .read val ∧ u.Reads e b val ∧ s.after b = false

/-- The statement has returned that it updated the row. -/
def Updated (s : UpdatesState) (b : Bool) : Prop := s.phase b = .done (.ok ⟨1, "UPDATE 1"⟩)

/-- How far a run from `e` can be: a statement has returned something else than that it updated the
row, or none of them has written, or one, or both. -/
inductive Progress (u : Updates) (e : Engine) (s : UpdatesState) : Prop
  | failed (b : Bool) (res : Except SqlError Result) (h : s.phase b = .done res)
      (hres : res ≠ .ok ⟨1, "UPDATE 1"⟩)
  | reading (he : s.engine = e) (hwait : ∀ b, u.Waiting e s b)
  | once (a : Bool) (val : Bytes) (ha : Updated s a) (hread : u.Reads e a val)
      (hput : mvccPut e u.key (u.newTs a) val none = .ok s.engine)
      (hother : u.Waiting e s (!a) ∨
        ∃ val', s.phase (!a) = .read val' ∧ u.Reads s.engine (!a) val' ∧ s.after (!a) = true)
  | twice (a : Bool) (val val' : Bytes) (mid : Engine) (ha : Updated s a) (hb : Updated s (!a))
      (hread : u.Reads e a val) (hput : mvccPut e u.key (u.newTs a) val none = .ok mid)
      (hput' : mvccPut mid u.key (u.newTs !a) val' none = .ok s.engine)
      (hother : u.Reads e (!a) val' ∧ s.after (!a) = false ∨
        u.Reads mid (!a) val' ∧ s.after (!a) = true)

theorem phase_step_of_done (h : s.phase a = .done res) (b : Bool) :
    (u.step s b).phase a = .done res := by
  by_cases hab : a = b
  · rw [← hab, step_done h]
    exact h
  · cases hb : s.phase b with
    | start =>
      rw [step_start hb]
      exact (update_of_ne hab ..).trans h
    | read val =>
      rw [step_read hb]
      exact (update_of_ne hab ..).trans h
    | done res' =>
      rw [step_done hb]
      exact h

theorem progress_start (h : s.phase b = .start) (e : Engine) :
    u.Progress e (u.step s b) ∨ ∃ val, u.Reads s.engine b val ∧
      (u.step s b).phase b = .read val := by
  have hphase : (u.step s b).phase b =
      .ofRead (updatedRow s.engine u.schema u.key (u.ts b) (u.exprs b)) := by
    rw [step_start h]
    exact update_self ..
  cases hrow : updatedRow s.engine u.schema u.key (u.ts b) (u.exprs b) with
  | error err =>
    rw [hrow] at hphase
    exact .inl (.failed b _ hphase (by simp))
  | ok row =>
    rw [hrow] at hphase
    cases row with
    | none => exact .inl (.failed b _ hphase (by simp))
    | some val => exact .inr ⟨val, hrow, hphase⟩

theorem progress_read {val : Bytes} (h : s.phase b = .read val) (e : Engine) :
    u.Progress e (u.step s b) ∨
      mvccPut s.engine u.key (u.newTs b) val none = .ok (u.step s b).engine ∧
      Updated (u.step s b) b := by
  rw [step_read h, Updated]
  cases mvccPut s.engine u.key (u.newTs b) val none with
  | error err => exact .inl (.failed b _ (update_self ..) (by simp))
  | ok e' => exact .inr ⟨rfl, update_self ..⟩

theorem Waiting.step_other (h : u.Waiting e s a) (hab : a ≠ b) : u.Waiting e (u.step s b) a := by
  have hsame : (u.step s b).phase a = s.phase a ∧ (u.step s b).after a = s.after a := by
    cases hb : s.phase b with
    | start =>
      rw [step_start hb]
      exact ⟨update_of_ne hab .., update_of_ne hab ..⟩
    | read val =>
      rw [step_read hb]
      exact ⟨update_of_ne hab .., rfl⟩
    | done res =>
      rw [step_done hb]
      exact ⟨rfl, rfl⟩
  rw [Waiting, hsame.1, hsame.2]
  exact h

theorem Progress.step (h : u.Progress e s) (b : Bool) : u.Progress e (u.step s b) := by
  cases h with
  | failed a res h hres => exact .failed a res (phase_step_of_done h b) hres
  | reading he hwait =>
    have hother : u.Waiting e (u.step s b) (!b) := (hwait !b).step_other (Bool.not_ne_self b)
    rcases hwait b with hstart | ⟨val, hphase, hread, -⟩
    · refine (progress_start hstart e).elim id fun ⟨val, hval, hphase⟩ ↦ ?_
      have hafter : (u.step s b).after b = false := by
        rw [step_start hstart]
        refine (update_self ..).trans ?_
        rcases hwait !b with h | ⟨_, h, -⟩ <;> rw [h] <;> rfl
      refine .reading (by rw [step_start hstart, he]) fun b' ↦ ?_
      by_cases hb : b' = b
      · subst hb
        exact .inr ⟨val, hphase, he ▸ hval, hafter⟩
      · rw [Bool.eq_not_of_ne hb]
        exact hother
    · refine (progress_read hphase e).elim id fun ⟨hput, hdone⟩ ↦ ?_
      exact .once b val hdone hread (he ▸ hput) (.inl hother)
  | once a val ha hread hput hother =>
    by_cases hb : b = a
    · rw [hb, step_done ha]
      exact .once a val ha hread hput hother
    · obtain rfl : b = !a := Bool.eq_not_of_ne hb
      have ha' : Updated (u.step s !a) a := phase_step_of_done ha _
      rcases hother with (hstart | ⟨val', hphase, hread', hafter⟩) | ⟨val', hphase, hread', hafter⟩
      · refine (progress_start hstart e).elim id fun ⟨val', hval', hphase⟩ ↦ ?_
        have hengine : (u.step s !a).engine = s.engine := by rw [step_start hstart]
        have hafter : (u.step s !a).after (!a) = true := by
          rw [step_start hstart]
          refine (update_self ..).trans ?_
          rw [Bool.not_not, ha]
          rfl
        refine .once a val ha' hread (hengine ▸ hput) (.inr ⟨val', hphase, hengine ▸ hval', hafter⟩)
      · refine (progress_read hphase e).elim id fun ⟨hput', hdone⟩ ↦ ?_
        have hsame : (u.step s !a).after = s.after := by rw [step_read hphase]
        exact .twice a val val' s.engine ha' hdone hread hput hput' (.inl ⟨hread', hsame ▸ hafter⟩)
      · refine (progress_read hphase e).elim id fun ⟨hput', hdone⟩ ↦ ?_
        have hsame : (u.step s !a).after = s.after := by rw [step_read hphase]
        exact .twice a val val' s.engine ha' hdone hread hput hput' (.inr ⟨hread', hsame ▸ hafter⟩)
  | twice a val val' mid ha hb hread hput hput' hother =>
    have hsame : u.step s b = s := by
      by_cases hba : b = a
      · rw [hba, step_done ha]
      · rw [Bool.eq_not_of_ne hba, step_done hb]
    rw [hsame]
    exact .twice a val val' mid ha hb hread hput hput' hother

theorem progress_run (u : Updates) (e : Engine) (schedule : List Bool) :
    u.Progress e (u.run e schedule) := by
  induction schedule using List.reverseRecOn with
  | nil => exact .reading rfl fun b ↦ .inl rfl
  | append_singleton schedule b ih =>
    rw [run, foldl_append]
    exact ih.step b

/-! ## Which updates last -/

/-- A row has the values that a statement sets. -/
def Has (u : Updates) (b : Bool) (row : Row) : Prop :=
  ∀ c v, assigned (u.exprs b) c = some v →
    (row.lookup c).map GoLibrary.stored = some (GoLibrary.stored v)

/-- The statements set columns that are not the primary key, and no column is set by both. -/
structure Different (u : Updates) : Prop where
  named : Named u.schema.columns
  nonKey : ∀ b c v, assigned (u.exprs b) c = some v → NonKey u.schema.columns c
  disjoint : ∀ b c v, assigned (u.exprs b) c = some v → assigned (u.exprs !b) c = none

section

variable {val : Bytes} {row : Row} (h : u.Reads e b val) (hu : u.Different)
  (hrow : decodeRowValue val = .ok row)
include h hu hrow

theorem Reads.has : u.Has b row := by
  obtain ⟨old, row', -, hdec, hlookup⟩ := updatedRow_spec hu.named h
  obtain rfl : row = row' := Except.ok.inj (hrow.symm.trans hdec)
  intro c v hv
  rw [hlookup c (hu.nonKey b c v hv), hv, some_or, map_some, map_some, GoLibrary.stored_stored]

/-- What a statement writes has the values of the other one if the row that it read has them. -/
theorem Reads.has_other_iff :
    u.Has (!b) row ↔ ∃ old, RowAt e u.key (u.ts b) old ∧ u.Has (!b) old := by
  obtain ⟨old, row', hold, hdec, hlookup⟩ := updatedRow_spec hu.named h
  obtain rfl : row = row' := Except.ok.inj (hrow.symm.trans hdec)
  have hsame : ∀ c v, assigned (u.exprs !b) c = some v →
      (row.lookup c).map GoLibrary.stored = (old.lookup c).map GoLibrary.stored := by
    intro c v hv
    have hnone : assigned (u.exprs b) c = none := Bool.not_not b ▸ hu.disjoint (!b) c v hv
    rw [hlookup c (hu.nonKey _ c v hv), hnone, Option.none_or, Option.map_map]
    congr 1
    exact funext GoLibrary.stored_stored
  constructor
  · intro hhas
    exact ⟨old, hold, fun c v hv ↦ (hsame c v hv).symm.trans (hhas c v hv)⟩
  · rintro ⟨old', hold', hhas⟩ c v hv
    rw [hsame c v hv, hold.unique hold']
    exact hhas c v hv

end

end Updates

end Updates

/-! ## A table with two columns -/

/-- `t (id INT PRIMARY KEY, a TEXT, b TEXT)`. -/
def sampleSchema : TableSchema :=
  ⟨ascii "t", [⟨ascii "id", .int, true⟩, ⟨ascii "a", .text, false⟩, ⟨ascii "b", .text, false⟩]⟩

/-- The table is created, and gets one row. -/
def sampleRuns : List Run :=
  [⟨false, ⟨fun _ ↦ 10, 0, 0, {}⟩,
      .createTable (ascii "t") [.column (ascii "id") (ascii "INT") true,
      .column (ascii "a") (ascii "TEXT") false, .column (ascii "b") (ascii "TEXT") false]⟩,
    ⟨false, ⟨fun _ ↦ 20, 0, 0, {}⟩, .insert (.name (ascii "t"))
      (some [[.num (ascii "1"), .str (ascii "x"), .str (ascii "x")]])⟩]

/-- One statement sets `a`, the other one sets `b`, both `WHERE id = 1`. -/
def sampleUpdates (ts newTs : Bool → Timestamp) : Updates where
  schema := sampleSchema
  key := encodeRowKey (ascii "t") .int (.int 1)
  exprs b := [(ascii (if b then "b" else "a"), .str (ascii "y"))]
  ts := ts
  newTs := newTs

theorem different_sampleUpdates (ts newTs : Bool → Timestamp) :
    (sampleUpdates ts newTs).Different := by
  have hset : ∀ b c v, assigned ((sampleUpdates ts newTs).exprs b) c = some v →
      c = ascii (if b then "b" else "a") := by
    intro b c v hv
    by_contra hc
    rw [sampleUpdates, assigned, assigned, none_or, if_neg hc] at hv
    cases hv
  refine ⟨fun _ _ ↦ rfl, ?_, ?_⟩
  · intro b c v hv
    rw [hset b c v hv]
    cases b with
    | false => exact ⟨⟨ascii "a", .text, false⟩, mem_of_getElem? (i := 1) rfl, rfl, rfl⟩
    | true => exact ⟨⟨ascii "b", .text, false⟩, mem_of_getElem? (i := 2) rfl, rfl, rfl⟩
  · intro b c v hv
    rw [hset b c v hv, sampleUpdates, assigned, assigned, none_or]
    cases b with
    | false => exact if_neg (by decide)
    | true => exact if_neg (by decide)

theorem eq_ok_of_toOption {ε α : Type*} {r : Except ε α} {x : α} (h : r.toOption = some x) :
    r = .ok x := by
  cases r with
  | error err => exact absurd h (by simp [Except.toOption])
  | ok y => rw [Option.some.inj h]

end DucklingDB.Sql
