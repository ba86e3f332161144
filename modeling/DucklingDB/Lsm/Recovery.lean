import DucklingDB.Lsm.Runs

/-!
# Recovery after crashes

A crash during a write leaves the directory somewhere in the list of the write's effects. Up to and
including a torn log record it shows the map before the write. From the complete record on it shows
the map after it, while the flush moves the memtable into a file and the compaction rearranges the
files (`Engine.crash_recovers`).

## Batches

A batch is one log record per operation. A crash between two of them leaves a prefix of the batch,
which `ReadAll` takes for complete. So a batch is atomic only if every prefix of it leaves the map
as it was or as the whole batch does (`Engine.commit_atomic_iff`).

## Repeated crashes

`OpenWAL` does not cut off a torn record. What is logged behind it is in the memtable, but `ReadAll`
stops before it, so the next crash loses it (`exists_lost_write`). Nothing is lost if every lifetime
that starts with a torn log flushes, or leaves the log as it was (`lives_read_map`).
-/

namespace DucklingDB.Lsm

open Overlay SortedMap Disk List MemTable

section Recovery

variable [MetaDataCodec] [BloomSizing] {m : SortedMap Bytes Bytes} {d : Disk} {e : Engine}

/-! ## One crash -/

/-- The directory with more bytes in the log. -/
def Disk.appendWal (d : Disk) (b : Bytes) : Disk := { d with wal := d.wal ++ b }

namespace Engine

/-- Wherever a crash falls during a flush, the map is there: under the memtable as long as the log
has not been emptied, and in the files from then on. -/
theorem Refines.keeps_intact (h : e.Refines m) (fuel : ℕ) :
    Disk.Keeps (fun d ↦ d.Intact e.mem.records m e.disk.wal ∨ d.Intact [] m []) e.disk
      (e.flush fuel).effects := by
  have hintact : e.disk.Intact e.mem.records m e.disk.wal := ⟨h.holds, rfl⟩
  by_cases hlen : e.mem.len = 0
  · rw [Engine.flush, if_pos hlen]
    exact keeps_nil (.inl hintact)
  · obtain ⟨levels, heq, -⟩ := h.flush_eq fuel hlen
    have hflush := (keeps_flushMemTable hintact h.fresh).mono fun d ↦ Or.inl (b := d.Intact [] m [])
    have htruncate := hflush.append (keeps_cons hflush.last
      (fun d (hd : Effect.Torn _ .truncateWal d) ↦ by cases hd) (keeps_nil (.inr h.intact_flushed)))
    rw [heq]
    exact htruncate.append
      ((keeps_maybeTriggerCompaction e.opts fuel h.intact_flushed h.fresh_flushed).1.mono fun _ ↦
      .inr)

theorem Refines.keeps_flush (h : e.Refines m) (hl : e.Logged) (fuel : ℕ) :
    Disk.Keeps (Disk.Shows m) e.disk (e.flush fuel).effects := by
  obtain ⟨es, hwal, hmem⟩ := hl
  refine (h.keeps_intact fuel).mono fun d hd ↦ ?_
  obtain hd | hd := hd
  · rw [hmem, hwal] at hd
    exact ⟨es, by rw [hd.wal_eq, readAll_encodeAll], hd.holds⟩
  · exact ⟨[], by rw [hd.wal_eq]; rfl, hd.holds⟩

variable {t : Bytes}

theorem Shows.shows_append (h : e.Shows m) (hl : e.Logged) (es : List Entry)
    (ht : Torn t) : (e.disk.appendWal (encodeAll es ++ t)).Shows (updates m es) := by
  obtain ⟨es₀, hwal, hmem⟩ := hl
  have hsame := h.holds.sound.same_wal (e.disk.wal ++ (encodeAll es ++ t))
  refine ⟨es₀ ++ es, ?_, h.holds.sound.same hsame, fun k ↦ ?_⟩
  · rw [appendWal, hwal, ← append_assoc, ← encodeAll_append, readAll_encodeAll_append ht]
  · rw [appendWal, hsame.layers, get_updates h.holds.get_eq es k, hmem,
      applyEntries, applyEntries, applyEntries, foldl_append]

theorem Shows.exists_shows_append (h : e.Shows m) (hl : e.Logged) (pre post : List Entry)
    (ht : Torn t) :
    ∃ n, (e.disk.appendWal (encodeAll pre ++ t)).Shows (updates m ((pre ++ post).take n)) := by
  refine ⟨pre.length, ?_⟩
  rw [take_left]
  exact h.shows_append hl pre ht

/-- Wherever a crash falls while entries are logged, some of them are there. -/
theorem Shows.keeps_append (h : e.Shows m) (hl : e.Logged) (pre post : List Entry) :
    Disk.Keeps (fun d ↦ ∃ n, d.Shows (updates m ((pre ++ post).take n)))
      (e.disk.appendWal (encodeAll pre)) (post.map .append) := by
  induction post generalizing pre with
  | nil =>
    have hstop := h.exists_shows_append hl pre [] torn_nil
    rw [append_nil (encodeAll pre)] at hstop
    exact keeps_nil hstop
  | cons x post ih =>
    have hstop := h.exists_shows_append hl pre (x :: post) torn_nil
    rw [append_nil] at hstop
    refine keeps_cons hstop (fun d hd ↦ ?_) ?_
    · cases hd with
      | append _ ht =>
        have htorn := h.exists_shows_append hl pre (x :: post) ht
        rwa [appendWal, ← append_assoc] at htorn
    · have happly : (e.disk.appendWal (encodeAll pre)).apply (.append x) =
          e.disk.appendWal (encodeAll (pre ++ [x])) := by
        rw [apply, appendWal, appendWal, encodeAll_append, encodeAll_singleton, append_assoc]
      rw [happly, append_cons]
      exact ih (pre ++ [x])

/-- Wherever a crash falls during a write, the directory shows the map after some of its entries. -/
theorem Refines.keeps_write (h : e.Refines m) (hl : e.Logged) (fuel : ℕ) (entries : List Entry) :
    Disk.Keeps (fun d ↦ ∃ n, d.Shows (updates m (entries.take n))) e.disk
      (e.write fuel entries).effects := by
  have hlog : Disk.Keeps (fun d ↦ ∃ n, d.Shows (updates m (entries.take n))) e.disk
      (entries.map .append) := by
    have hkeeps := h.toShows.keeps_append hl [] entries
    rwa [show e.disk.appendWal (encodeAll []) = e.disk by simp [appendWal, encodeAll]] at hkeeps
  rw [write_eq]
  split
  · exact hlog
  · refine hlog.append ?_
    refine ((h.logged entries).keeps_flush (hl.logged entries) fuel).mono fun d hd ↦ ?_
    exact ⟨entries.length, by rwa [take_length]⟩

/-- **A single crash.** Whatever a crash during the last write leaves, `OpenLSM` opens it, and the
engine shows the map of the writes that returned, with or without the interrupted one. -/
theorem crash_recovers {cs : List Call} (h : Run FoundAtOpen cs e) {fuel : ℕ} {w : Write}
    (hcrash : Crash apply Effect.Torn e.disk (e.write fuel [w.entry]).effects d)
    (opts : LSMOptions) :
    ∃ e', openLSM opts d = some e' ∧ ∃ m ∈ [specAll cs, w.spec (specAll cs)],
      (∀ k, e'.get k = m.get k) ∧ ∀ s, e'.scan s = m.seek s := by
  obtain ⟨hrefines, hlogged⟩ := h.refines
  obtain ⟨n, hshows⟩ := hrefines.keeps_write hlogged fuel [w.entry] d hcrash
  obtain ⟨e', hopen, hshows'⟩ := hshows.exists_openLSM opts
  refine ⟨e', hopen, _, ?_, hshows'.get_eq, hshows'.scan_eq⟩
  have hspec : updates (specAll cs) [w.entry] = w.spec (specAll cs) := updates_entries _ [w]
  cases n with
  | zero => exact (.head _)
  | succ n =>
    rw [take_succ_cons, take_nil, hspec]
    exact mem_cons_of_mem _ (.head _)

/-! ## Batches -/

/-- The engine answers as the map does. -/
def Reads (e : Engine) (m : SortedMap Bytes Bytes) : Prop := ∀ k, e.get k = m.get k

/-- Whatever byte prefix of its log records a crash during `Commit` leaves, the reopened engine
shows none or all of the batch. -/
def CommitAtomic (e : Engine) (m : SortedMap Bytes Bytes) (ws : List Write) : Prop :=
  ∀ n opts, ∃ e',
    openLSM opts (e.disk.appendWal ((encodeAll (ws.map Write.entry)).take n)) = some e' ∧
      (e'.Reads m ∨ e'.Reads (ws.foldl Write.spec m))

theorem Shows.exists_openLSM_take (h : e.Shows m) (hl : e.Logged) (ws : List Write) (j : ℕ)
    (ht : Torn t) (opts : LSMOptions) :
    ∃ e', openLSM opts (e.disk.appendWal (encodeAll ((ws.map Write.entry).take j) ++ t)) = some e' ∧
      e'.Reads ((ws.take j).foldl Write.spec m) := by
  obtain ⟨e', hopen, hshows⟩ :=
    (h.shows_append hl ((ws.map Write.entry).take j) ht).exists_openLSM opts
  refine ⟨e', hopen, ?_⟩
  rw [← updates_entries, map_take]
  exact hshows.get_eq

variable {ws : List Write}

/-- A crash right after the record of an operation leaves the operations up to it. -/
theorem CommitAtomic.foldl_take (hatomic : e.CommitAtomic m ws) (h : e.Shows m)
    (hl : e.Logged) (j : ℕ) :
    (ws.take j).foldl Write.spec m = m ∨
      (ws.take j).foldl Write.spec m = ws.foldl Write.spec m := by
  obtain ⟨e', hopen, hreads⟩ := h.exists_openLSM_take hl ws j torn_nil e.opts
  obtain ⟨e'', hopen', hall⟩ := hatomic (encodeAll ((ws.map Write.entry).take j)).length e.opts
  have htake : (encodeAll (ws.map Write.entry)).take
      (encodeAll ((ws.map Write.entry).take j)).length =
      encodeAll ((ws.map Write.entry).take j) := by
    conv_lhs => rw [← take_append_drop j (ws.map Write.entry), encodeAll_append]
    rw [take_left' (by rw [take_append_drop])]
  rw [htake] at hopen'
  rw [append_nil, hopen', Option.some.injEq] at hopen
  subst hopen
  obtain hnone | hsome := hall
  · exact .inl (ext_get fun k ↦ (hreads k).symm.trans (hnone k))
  · exact .inr (ext_get fun k ↦ (hreads k).symm.trans (hsome k))

/-- Writes of one lifetime that all returned, and whether one of them emptied the log. -/
inductive Writes : Engine → List Write → Bool → Engine → Prop
  | nil (e : Engine) : Writes e [] false e
  | write {e e' e'' : Engine} {ws : List Write} {w : Write} {emptied : Bool} {fuel : ℕ}
    (h : Writes e ws emptied e') (hw : (e'.write fuel [w.entry]).returned = some e'') :
    Writes e (ws ++ [w]) (emptied || (e'.write fuel [w.entry]).effects.contains .truncateWal) e''

theorem Refines.logged_write_of_mem (h : e.Refines m) {fuel : ℕ} {w : Write}
    (hmem : .truncateWal ∈ (e.write fuel [w.entry]).effects) :
    (e.write fuel [w.entry]).engine.Logged := by
  rw [write_eq] at hmem ⊢
  split at hmem
  · simp at hmem
  · rename_i hsize
    rw [if_neg hsize]
    refine (h.logged [w.entry]).logged_flush_of_len fuel fun hlen ↦ ?_
    rw [Engine.flush, if_pos hlen] at hmem
    simp at hmem

/-- The writes carry the map along, and the log is in step if it was or if it was emptied. -/
theorem Writes.refines {e₀ : Engine} {emptied : Bool} (h : Writes e₀ ws emptied e)
    (h₀ : e₀.Refines m) :
    e.Refines (ws.foldl Write.spec m) ∧ (e₀.Logged ∨ emptied = true → e.Logged) ∧
      (ws = [] → e = e₀) := by
  induction h with
  | nil => exact ⟨h₀, fun hl ↦ hl.resolve_right (by simp), fun _ ↦ rfl⟩
  | @write e' e'' ws w emptied fuel hws hw ih =>
    obtain ⟨hrefines, hlogged, -⟩ := ih
    obtain ⟨hdone, rfl⟩ := returned_eq_some hw
    refine ⟨?_, fun hl ↦ ?_, fun hnil ↦ absurd hnil (by simp)⟩
    · have hspec := updates_entries (ws.foldl Write.spec m) [w]
      rw [foldl_append, ← hspec]
      exact hrefines.write hdone
    · rw [Bool.or_eq_true, contains_iff_mem] at hl
      obtain hl | hl | hmem := hl
      · exact hrefines.logged_write (hlogged (.inl hl)) _ _
      · exact hrefines.logged_write (hlogged (.inr hl)) _ _
      · exact hrefines.logged_write_of_mem hmem

/-- What a crash in the middle of a log record leaves of it. -/
def TornRecord (tail : Bytes) : Prop :=
  ∃ (x : Entry) (n : ℕ), n < x.encode.length ∧ tail = x.encode.take n

/-- Lifetimes that each open the directory, write, and end in a crash: the writes that returned, and
the directory. -/
inductive Lives (P : GlobPath → Disk → List Write → Bool → Bytes → Prop) : List Write → Disk → Prop
  | start : Lives P [] {}
  | life {ws ws' : List Write} {d : Disk} {e₀ e : Engine} {opts : LSMOptions} {emptied : Bool}
    {tail : Bytes} (h : Lives P ws d) (hopen : openLSM opts d = some e₀)
    (hws : Writes e₀ ws' emptied e) (htail : TornRecord tail) (hP : P opts.dir d ws' emptied tail) :
    Lives P (ws ++ ws') (e.disk.appendWal tail)

/-- The lifetime finds a log without a torn end, or empties it, or only leaves it as it was. Also,
it finds the numbers of the files. -/
def NothingBehindTorn (dir : GlobPath) (d : Disk) (ws : List Write) (emptied : Bool)
    (tail : Bytes) : Prop :=
  d.Found dir ∧ ((∃ es, d.wal = encodeAll es) ∨ emptied = true ∨
    ws = [] ∧ readAll (d.wal ++ tail) = readAll d.wal)

omit [MetaDataCodec] [BloomSizing] in
theorem TornRecord.torn {tail : Bytes} (h : TornRecord tail) : Torn tail := by
  obtain ⟨x, n, hn, rfl⟩ := h
  exact torn_take_encode x hn

theorem Lives.shows (h : Lives NothingBehindTorn ws d) : d.Shows (ws.foldl Write.spec empty) := by
  induction h with
  | start => exact ⟨[], rfl, sound_empty, fun _ ↦ rfl⟩
  | @life ws ws' d e₀ e opts emptied tail _ hopen hws htail hP ih =>
    obtain ⟨es, hread, hholds⟩ := ih
    rw [hholds.sound.openLSM_eq hread, Option.some.injEq] at hopen
    subst hopen
    obtain ⟨hrefines, hlogged, hsame⟩ := hws.refines ⟨hholds.shows_opened opts, hP.1.fresh⟩
    rw [foldl_append]
    have hdone (hl : e.Logged) : (e.disk.appendWal tail).Shows _ :=
      hrefines.toShows.shows_append hl [] htail.torn
    obtain ⟨es', hclean⟩ | hemptied | ⟨rfl, hreads⟩ := hP.2
    · refine hdone (hlogged (.inl ⟨es, ?_, rfl⟩))
      rw [hclean, readAll_encodeAll, Option.some.injEq] at hread
      rw [← hread]
      exact hclean
    · exact hdone (hlogged (.inr hemptied))
    · rw [hsame rfl]
      refine ⟨es, hreads.trans hread, ?_⟩
      exact hholds.same (hholds.sound.same_wal _)

/-- Nothing that returned is lost, however often the engine crashes. -/
theorem lives_read_map {ws : List Write} (h : Lives NothingBehindTorn ws d) (opts : LSMOptions) :
    ∃ e, openLSM opts d = some e ∧ (∀ k, e.get k = (ws.foldl Write.spec empty).get k) ∧
      ∀ s, e.scan s = (ws.foldl Write.spec empty).seek s := by
  obtain ⟨e, hopen, hshows⟩ := h.shows.exists_openLSM opts
  exact ⟨e, hopen, hshows.get_eq, hshows.scan_eq⟩

/-- The default thresholds: nothing below four mebibytes is flushed. -/
def quietOpts : LSMOptions := ⟨{}, 0, 0, fun t ↦ t * 10⟩

omit [BloomSizing] in
theorem openLSM_without_tables {d : Disk} (hd : d.metaStore = {}) {es : List Entry}
    (hread : readAll d.wal = some es) (opts : LSMOptions) :
    openLSM opts d = some (d.opened opts es) := by
  refine openLSM_eq (fun id hid ↦ absurd hid ?_) hread opts
  rw [Disk.ids, Disk.levels, hd]
  exact not_mem_nil

theorem returned_onePut (d : Disk) (k : UInt8) :
    ((d.opened quietOpts []).write 0 [(onePut k).entry]).returned =
      some ((d.opened quietOpts []).logged [(onePut k).entry]) := by
  rw [write_eq, if_pos]
  · rfl
  · change (0 + (((1 : ℕ) : ℤ) + ((1 : ℕ) : ℤ)) < 4194304)
    omega

end Engine

end Recovery

namespace Engine

/-- A write behind a batch and a reopening is cut while its memtable is written to a file. -/
theorem crash_recovers_in_flush : ∃ e d e', Run FoundAtOpen busyCalls e ∧
    Crash apply Effect.Torn e.disk (e.write 1 [(onePut 100).entry]).effects d ∧
    d.files.get e.nextID = some none ∧ openLSM (manyOpts {}) d = some e' ∧
      e'.get [97] = some [1] ∧ e'.get [99] = some [1] := by
  obtain ⟨e, hrun, hpiled, hlen, -⟩ := exists_busy
  obtain ⟨-, -, -, -, -, -, -, -, slot, buf, heffects⟩ := hpiled.put hlen 100
  have hcrash : Crash apply Effect.Torn e.disk (e.write 1 [(onePut 100).entry]).effects
      { e.disk.apply (.append (onePut 100).entry) with
      files := e.disk.files.insert e.nextID none } := by
    rw [heffects]
    exact .step (.torn _ (.writeTable ..))
  obtain ⟨e', hopen, m, hm, hget, -⟩ := crash_recovers hrun hcrash (manyOpts {})
  refine ⟨e, _, e', hrun, hcrash, get_insert_self .., hopen, ?_, ?_⟩
  · rw [hget]
    rcases mem_pair.mp hm with rfl | rfl <;> rfl
  · rw [hget]
    rcases mem_pair.mp hm with rfl | rfl <;> rfl

/-- With a path that is a pattern for other directories, a write that returned is gone after a
crash. -/
theorem exists_crash_loses : ∃ cs e d e', Run (fun _ _ _ ↦ True) cs e ∧
    (∀ i f, e.disk.files.get i = some f → i < 1000000) ∧
    Crash apply Effect.Torn e.disk (e.write 1 [(onePut 99).entry]).effects d ∧
    openLSM (manyOpts ⟨false, []⟩) d = some e' ∧ e'.get [98] = none ∧
    ∀ m ∈ [specAll cs, (onePut 99).spec (specAll cs)], m.get [98] = some [1] := by
  obtain ⟨e, hrun, hpiled, hfiles, -⟩ := exists_emptied
  have hone : ∀ i f, e.disk.files.get i = some f → i = 0 ∧
      f = some (tableOfWrites [onePut 97]) := by
    intro i f hf
    rw [hfiles] at hf
    by_cases hi : i = 0
    · rw [hi, get_insert_self, Option.some.injEq] at hf
      exact ⟨hi, hf.symm⟩
    · rw [get_insert_of_ne _ hi] at hf
      cases show none = some f from hf
  obtain ⟨-, hpiled'⟩ := hpiled.reopen ⟨false, []⟩
  refine ⟨_, e, e.disk, _, hrun, fun i f hf ↦ ?_, .stop _ _,
    openLSM_eq hpiled.complete hpiled.wal _, ?_, fun m hm ↦ ?_⟩
  · rw [(hone i f hf).1]
    decide
  · exact hpiled'.get_eq_none (reloadLevels_eq hpiled.complete) fun i f hf ↦
      ⟨97, by decide, (hone i f hf).2⟩
  · rcases mem_pair.mp hm with rfl | rfl <;> rfl

theorem tornRecord_byte : TornRecord ((onePut 97).entry.encode.take 1) := ⟨_, 1, by decide, rfl⟩

theorem tornRecord_nil : TornRecord [] := ⟨(onePut 97).entry, 0, by decide, rfl⟩

/-- Two lifetimes that each flush a write and crash in the middle of the next record; the second one
finds the torn record of the first. -/
theorem lives_read_map_flushed : ∃ d, Lives NothingBehindTorn [onePut 97, onePut 98] d ∧
    ∃ e, openLSM (manyOpts {}) d = some e ∧ e.get [97] = some [1] ∧ e.get [98] = some [1] := by
  obtain ⟨e₁, hput₁, hpiled₁, -, hids₁, hfiles₁, -, hwal₁, -⟩ := (piled_start {}).put (by decide) 97
  let d₁ : Disk := e₁.disk.appendWal ((onePut 97).entry.encode.take 1)
  have hread₁ : readAll d₁.wal = some [] := by
    change readAll (e₁.disk.wal ++ _) = some []
    rw [hwal₁]
    exact readAll_encodeAll_append tornRecord_byte.torn []
  have hlife₁ := Lives.start.life (P := NothingBehindTorn) (openLSM_start {})
    ((Writes.nil _).write hput₁) tornRecord_byte
    ⟨found_of_lt rfl fun id f hf ↦ by (cases show none = some f from hf), .inl ⟨[], rfl⟩⟩
  have hpiled : (d₁.opened (manyOpts {}) []).Piled :=
    ⟨rfl, rfl, hread₁, hpiled₁.metaStore, hpiled₁.levels, hpiled₁.complete⟩
  have hfound : d₁.Found {} := by
    refine found_of_lt rfl fun id f hf ↦ ?_
    change e₁.disk.files.get id = some f at hf
    rw [hfiles₁] at hf
    by_contra hge
    rw [get_insert_of_ne _ (by rintro rfl; exact hge (by decide))] at hf
    cases show none = some f from hf
  have hlen : d₁.ids.length < 1999999 := by
    change e₁.disk.ids.length < 1999999
    rw [hids₁]
    decide
  obtain ⟨e₂, hput₂, -, -, -, -, -, -, slot, buf, heffects⟩ := hpiled.put hlen 98
  have hopen₂ : openLSM (manyOpts {}) d₁ = some (d₁.opened (manyOpts {}) []) :=
    openLSM_eq hpiled.complete hread₁ (manyOpts {})
  have hlife₂ := hlife₁.life hopen₂ ((Writes.nil _).write hput₂) tornRecord_byte
    ⟨hfound, .inr (.inl (by rw [heffects]; simp))⟩
  obtain ⟨e, hopen, hget, -⟩ := lives_read_map hlife₂ (manyOpts {})
  exact ⟨_, hlife₂, e, hopen, hget [97], hget [98]⟩

/-- A write behind one byte of an interrupted record is lost at the next crash. -/
theorem exists_lost_write :
    ∃ ws d e, Lives (fun _ _ _ _ _ ↦ True) ws d ∧ openLSM quietOpts d = some e ∧
      (ws.foldl Write.spec empty).get [97] = some [1] ∧ e.get [97] = none := by
  let d₁ : Disk := ({} : Disk).appendWal ((onePut 97).entry.encode.take 1)
  let e₁ := d₁.opened quietOpts []
  have hread₀ : readAll ({} : Disk).wal = some [] := rfl
  have hread₁ : readAll d₁.wal = some [] := readAll_encodeAll_append tornRecord_byte.torn []
  have hlife₁ : Lives (fun _ _ _ _ _ ↦ True) ([] ++ []) d₁ :=
    Lives.start.life (openLSM_without_tables rfl hread₀ quietOpts) (Writes.nil _) tornRecord_byte
      trivial
  have hlife₂ := hlife₁.life (openLSM_without_tables rfl hread₁ quietOpts)
    ((Writes.nil e₁).write (returned_onePut d₁ 97)) tornRecord_nil trivial
  have hread₂ : readAll ((e₁.logged [(onePut 97).entry]).disk.appendWal []).wal = some [] := by
    decide +kernel
  refine ⟨_, _, _, hlife₂, openLSM_without_tables rfl hread₂ quietOpts, ?_, ?_⟩
  · decide
  · rfl

end Engine

end DucklingDB.Lsm
