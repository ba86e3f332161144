import DucklingDB.Lsm.Readers
import DucklingDB.Lsm.Recovery

/-!
# Numbers of files

`NewSSTableWriter` truncates the file it opens, so the number of a new SSTable must not be taken.
The numbers go up within a lifetime, and a new lifetime starts with `scanDirForNextID`. It takes the
path of the directory for a pattern, and reads six digits of a name, while a number that needs more
is printed with all of them. So the number that it returns is above all others exactly if the
pattern finds a number of six digits that is not below them (`Disk.fresh_scanDirForNextID_iff`).
-/

namespace DucklingDB.Lsm

open Overlay List MemTable

section FileNumbers

variable [MetaDataCodec] [BloomSizing] {m : SortedMap Bytes Bytes} {d : Disk} {e : Engine}

omit [MetaDataCodec] [BloomSizing] in
theorem exists_get_eq_find {ls : List (List Record)} (h : ∀ rs ∈ ls, Ascending rs) :
    ∃ m : SortedMap Bytes Bytes, ∀ k, m.get k = (find k ls).join := by
  obtain ⟨m, hm⟩ := @exists_map (ls.map fun rs ↦ { kind := .memTable, records := rs })
    (forall_mem_map.mpr h)
  exact ⟨m, fun k ↦ by rw [hm, map_map]; exact congrArg (fun ls ↦ (find k ls).join) ls.map_id⟩

/-- Whatever the log holds, what is opened stands for some map. -/
theorem Disk.Sound.exists_refines (h : d.Sound) {opts : LSMOptions} (hfound : d.Found opts.dir)
    (hopen : openLSM opts d = some e) : ∃ m, e.Refines m := by
  cases hread : readAll d.wal with
  | none => simp [openLSM, hread] at hopen
  | some es =>
    rw [h.openLSM_eq hread, Option.some.injEq] at hopen
    subst hopen
    obtain ⟨m, hm⟩ := @exists_get_eq_find ((applyEntries {} es).records :: d.layers)
      (forall_mem_cons.mpr ⟨(applyEntries {} es).entries.sorted,
        forall_mem_map.mpr fun id hid ↦ (h.present id hid).wellFormed.ascending⟩)
    exact ⟨m, ⟨⟨h, hm⟩, h.reloadLevels⟩, hfound.fresh⟩

namespace Engine

/-- The changes to the directory during a call. -/
def effects (fuel : ℕ) (e : Engine) : Call → List Effect
  | .write w => (e.write fuel [w.entry]).effects
  | .commit ws => (e.write fuel (ws.map Write.entry)).effects
  | .reopen _ => (e.close fuel).effects

/-- Calls, and crashes anywhere in a call that are followed by `OpenLSM`, with a condition on the
directories that are opened. -/
inductive Lifetimes (P : GlobPath → Disk → Prop) : Engine → Prop
  | start {opts : LSMOptions} {e : Engine} (h : openLSM opts {} = some e) : Lifetimes P e
  | call {e e' : Engine} {c : Call} {fuel : ℕ} (h : Lifetimes P e)
    (hP : ∀ opts, c = .reopen opts → P opts.dir (e.close fuel).engine.disk)
    (hc : e.call fuel c = some e') : Lifetimes P e'
  | crash {e e' : Engine} {c : Call} {fuel : ℕ} {d : Disk} {opts : LSMOptions} (h : Lifetimes P e)
    (hd : Crash Disk.apply Effect.Torn e.disk (e.effects fuel c) d) (hP : P opts.dir d)
    (hopen : openLSM opts d = some e') : Lifetimes P e'

theorem keeps_sound_append (h : d.Sound) (es : List Entry) :
    Disk.Keeps Disk.Sound d (es.map .append) := by
  induction es generalizing d with
  | nil => exact keeps_nil h
  | cons x es ih =>
    refine keeps_cons h (fun d' hd' ↦ ?_) (ih (h.same (h.same_wal _)))
    cases hd' with
    | append => exact h.same (h.same_wal _)

theorem Refines.safe_flush (h : e.Refines m) (fuel : ℕ) :
    SafeAll e.disk (e.flush fuel).effects := by
  by_cases hlen : e.mem.len = 0
  · rw [Engine.flush, if_pos hlen]
    trivial
  · obtain ⟨levels, heq, -⟩ := h.flush_eq fuel hlen
    rw [heq]
    exact safeAll_append (safe_flushEffects h.fresh)
      (safe_maybeTriggerCompaction e.opts fuel h.intact_flushed h.fresh_flushed)

/-- A call overwrites nothing, and leaves a sound directory wherever a crash falls. -/
theorem Refines.safe_call (h : e.Refines m) (fuel : ℕ) (c : Call) :
    SafeAll e.disk (e.effects fuel c) ∧ Disk.Keeps Disk.Sound e.disk (e.effects fuel c) := by
  have hflush {e m} (h : Refines e m) : Disk.Keeps Disk.Sound e.disk (e.flush fuel).effects :=
    (h.keeps_intact fuel).mono fun _ hd ↦ hd.elim (·.holds.sound) (·.holds.sound)
  have hwrite (es : List Entry) : SafeAll e.disk (e.write fuel es).effects ∧
      Disk.Keeps Disk.Sound e.disk (e.write fuel es).effects := by
    have hsafe : SafeAll e.disk (es.map .append) :=
      safeAll_of_not_mem fun id t hmem ↦ by simp at hmem
    have hkeeps := keeps_sound_append h.holds.sound es
    rw [write_eq]
    split
    · exact ⟨hsafe, hkeeps⟩
    · refine ⟨safeAll_append hsafe ?_, hkeeps.append ?_⟩
      · exact (h.logged es).safe_flush fuel
      · exact hflush (h.logged es)
  cases c with
  | write w => exact hwrite [w.entry]
  | commit ws => exact hwrite (ws.map Write.entry)
  | reopen opts => exact ⟨h.safe_flush fuel, hflush h⟩

theorem Lifetimes.exists_refines (h : Lifetimes (fun dir d ↦ d.Found dir) e) :
    ∃ m, e.Refines m := by
  induction h with
  | start hopen => exact ⟨_, (refines_start hopen).1⟩
  | @call e e' c fuel _ hP hc ih =>
    obtain ⟨m, hm⟩ := ih
    cases c with
    | write w =>
      obtain ⟨hdone, rfl⟩ := returned_eq_some hc
      exact ⟨_, hm.write hdone⟩
    | commit ws =>
      obtain ⟨hdone, rfl⟩ := returned_eq_some hc
      exact ⟨_, hm.write hdone⟩
    | reopen opts =>
      obtain ⟨e₁, hclose, hopen⟩ := Option.bind_eq_some_iff.mp hc
      obtain ⟨hdone, rfl⟩ := returned_eq_some hclose
      have hflush : (e.close fuel).engine.Refines m := hm.flush hdone
      exact hflush.holds.sound.exists_refines (hP opts rfl) hopen
  | @crash e e' c fuel d opts _ hd hP hopen ih =>
    obtain ⟨m, hm⟩ := ih
    exact ((hm.safe_call fuel c).2 d hd).exists_refines hP hopen

/-- **No SSTable is overwritten** as long as every `OpenLSM` finds the numbers of the files, and
that is the case exactly if the scan returns a number above all others. -/
theorem Lifetimes.safe_effects (h : Lifetimes (fun dir d ↦ d.Found dir) e) (fuel : ℕ) (c : Call) :
    SafeAll e.disk (e.effects fuel c) ∧
      ∀ (d : Disk) (dir : GlobPath), d.Fresh (d.scanDirForNextID dir) ↔ d.Found dir := by
  obtain ⟨m, hm⟩ := h.exists_refines
  exact ⟨(hm.safe_call fuel c).1, fun _ _ ↦ Disk.fresh_scanDirForNextID_iff⟩

theorem Run.lifetimes {P : ℕ → Engine → Call → Prop} {Q : GlobPath → Disk → Prop} {cs : List Call}
    (h : Run P cs e)
    (hPQ : ∀ fuel e opts, P fuel e (.reopen opts) → Q opts.dir (e.close fuel).engine.disk) :
    Lifetimes Q e := by
  induction h with
  | start hopen => exact .start hopen
  | call _ hP hc ih => exact ih.call (fun opts hc ↦ hPQ _ _ opts (hc ▸ hP)) hc

end Engine

end FileNumbers

namespace Engine

/-- A crash in the middle of a flush has left a part of an SSTable. The next flush, after the
directory is opened again, writes to another file. -/
theorem safe_effects_torn : ∃ e d e', Run FoundAtOpen busyCalls e ∧
    Crash Disk.apply Effect.Torn e.disk (e.effects 1 (.write (onePut 100))) d ∧
    d.files.get e.nextID = some none ∧ openLSM (manyOpts {}) d = some e' ∧
    SafeAll e'.disk (e'.effects 1 (.write (onePut 101))) := by
  obtain ⟨e, hrun, hpiled, hlen, hnext, hsix⟩ := exists_busy
  obtain ⟨-, -, -, -, -, -, -, -, slot, buf, heffects⟩ := hpiled.put hlen 100
  let d : Disk := { e.disk.apply (.append (onePut 100).entry) with
    files := e.disk.files.insert e.nextID none }
  have hcrash : Crash Disk.apply Effect.Torn e.disk (e.effects 1 (.write (onePut 100))) d := by
    rw [effects, heffects]
    exact .step (.torn _ (.writeTable ..))
  have hfound : d.Found {} := by
    refine Disk.found_of_lt rfl fun id f hf ↦ ?_
    by_cases hid : id = e.nextID
    · exact hid ▸ hnext
    · exact hsix id f ((SortedMap.get_insert_of_ne _ hid _).symm.trans hf)
  obtain ⟨hrefines, hlogged⟩ := hrun.refines
  obtain ⟨n, hshows⟩ := hrefines.keeps_write hlogged 1 [(onePut 100).entry] d hcrash
  obtain ⟨e', hopen, -⟩ := hshows.exists_openLSM (manyOpts {})
  have hlife : Lifetimes (fun dir d ↦ d.Found dir) e' :=
    (hrun.lifetimes fun _ _ _ hP ↦ hP).crash hcrash hfound hopen
  exact ⟨e, d, e', hrun, hcrash, SortedMap.get_insert_self .., hopen,
    (hlife.safe_effects 1 (.write (onePut 101))).1⟩

/-- With a million files before it, the next SSTable has the number of the newest one. -/
theorem exists_not_safe_effects : ∃ e, Lifetimes (fun _ _ ↦ True) e ∧
    ¬SafeAll e.disk (e.effects 1 (.write (onePut 99))) := by
  obtain ⟨e, hrun, hpiled, hlen, hget, -⟩ := exists_taken
  obtain ⟨-, -, -, -, -, -, -, -, slot, buf, heffects⟩ := hpiled.put hlen 99
  refine ⟨e, hrun.lifetimes fun _ _ _ _ ↦ trivial, fun hsafe ↦ ?_⟩
  rw [effects, heffects] at hsafe
  cases hget.symm.trans (hsafe.2.1 _ _ rfl)

end Engine

end DucklingDB.Lsm
