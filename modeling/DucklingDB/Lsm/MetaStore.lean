import DucklingDB.Util.Reader
import DucklingDB.Util.Wire
import Mathlib.Order.Lattice

/-!
# The two-slot metadata store

`MetaStore` keeps the list of SSTables of each level in two files, `meta0` and `meta1`. Each holds
an encoded `MetaData` and its CRC-32. `Save` overwrites the slot with the lower version and `Load`
takes the higher one, where a slot that cannot be read counts as version zero when `Save` compares.

## Why the slot that is read is never the one that is written

Both comparisons fall on `meta0` when the versions are equal, so two readable slots must never have
the same version, and a readable slot must not have version zero. Both hold after any number of
saves, interrupted or not, because a save writes a version above both (`Sound`).

Names of SSTables are their numbers, and versions do not overflow. The encoding of `MetaData` is
`encoding/json` in the source; all that is used is that it can be decoded.
-/

namespace DucklingDB.Lsm

open Bytes List Option Nat

/-- The SSTables of each level, the newest first. -/
structure MetaData where
  version : ℕ := 0
  levels : List (List ℕ) := []
  deriving DecidableEq

/-- The encoding of the metadata. -/
class MetaDataCodec where
  marshal : MetaData → Bytes
  unmarshal : Bytes → Option MetaData
  unmarshal_marshal : ∀ m, unmarshal (marshal m) = some m

/-- A code for the metadata. -/
def MetaData.wire : Wire MetaData :=
  (Wire.unary.pair Wire.unary.list.list).via (fun m ↦ (m.version, m.levels))
    (fun x ↦ some ⟨x.1, x.2⟩) (fun _ ↦ rfl)

instance : MetaDataCodec where
  marshal := MetaData.wire.put
  unmarshal := MetaData.wire.decode
  unmarshal_marshal := MetaData.wire.decode_put

inductive Slot where
  | meta0
  | meta1
  deriving DecidableEq

/-- The two slot files, `none` where there is no such file. -/
structure MetaStore where
  meta0 : Option Bytes := none
  meta1 : Option Bytes := none
  deriving DecidableEq

/-! ## Slots -/

/-- The bytes before the checksum, if it is theirs. -/
def verify (buf : Bytes) : Option Bytes :=
  if buf.length < 4 then none
  else
    let data := buf.take (buf.length - 4)
    if ofLeBytes (buf.drop (buf.length - 4)) = (crc32 data).toNat then some data else none

theorem verify_append_checksum (data : Bytes) : verify (data ++ checksum data) = some data := by
  have hlen : (data ++ checksum data).length - 4 = data.length := by simp
  rw [verify, if_neg (by simp), hlen, take_left, drop_left]
  exact if_pos (ofLeBytes_checksum data)

namespace MetaStore

def file (ms : MetaStore) : Slot → Option Bytes
  | .meta0 => ms.meta0
  | .meta1 => ms.meta1

/-- Replace the contents of a slot. -/
def write (ms : MetaStore) (slot : Slot) (buf : Bytes) : MetaStore :=
  match slot with
  | .meta0 => { ms with meta0 := some buf }
  | .meta1 => { ms with meta1 := some buf }

section Codec

variable [MetaDataCodec]

variable (ms : MetaStore)

def readSlot (slot : Slot) : Option MetaData :=
  ((ms.file slot).bind verify).bind MetaDataCodec.unmarshal

/-- What `writeSlot` writes. -/
def slotBytes (m : MetaData) : Bytes :=
  MetaDataCodec.marshal m ++ checksum (MetaDataCodec.marshal m)

/-- The version of a slot, zero if it cannot be read. -/
def version (slot : Slot) : ℕ := ((ms.readSlot slot).getD {}).version

/-- The slot that `Save` overwrites. -/
def target : Slot :=
  if ms.version .meta1 < ms.version .meta0 then .meta1 else .meta0

/-- What `Save` writes there. -/
def saved (levels : List (List ℕ)) : MetaData :=
  ⟨max (ms.version .meta0) (ms.version .meta1) + 1, levels⟩

def save (levels : List (List ℕ)) : MetaStore :=
  ms.write ms.target (slotBytes (ms.saved levels))

def load : MetaData :=
  match ms.readSlot .meta0, ms.readSlot .meta1 with
  | none, none => {}
  | none, some slot1 => slot1
  | some slot0, none => slot0
  | some slot0, some slot1 => if slot1.version > slot0.version then slot1 else slot0

/-! ## Saves and loads -/

omit [MetaDataCodec] in
@[simp] theorem file_write_self (ms : MetaStore) (slot : Slot) (buf : Bytes) :
    (ms.write slot buf).file slot = some buf := by
  cases slot <;> rfl

variable {slot : Slot}

variable (ms : MetaStore)

omit [MetaDataCodec] in
theorem file_write_of_ne {slot' : Slot} (h : slot' ≠ slot) (buf : Bytes) :
    (ms.write slot buf).file slot' = ms.file slot' := by
  cases slot <;> cases slot' <;> first | rfl | exact absurd rfl h

theorem readSlot_write_slotBytes (slot : Slot) (m : MetaData) :
    (ms.write slot (slotBytes m)).readSlot slot = some m := by
  rw [readSlot, file_write_self, bind_some, slotBytes, verify_append_checksum,
    bind_some, MetaDataCodec.unmarshal_marshal]

theorem readSlot_write_torn (slot : Slot) {buf : Bytes} (h : verify buf = none) :
    (ms.write slot buf).readSlot slot = none := by
  rw [readSlot, file_write_self, bind_some, h, bind_none]

/-- Readable slots have different versions, none of them zero. -/
structure Sound (ms : MetaStore) : Prop where
  version_pos : ∀ slot m, ms.readSlot slot = some m → 0 < m.version
  version_ne : ∀ m m', ms.readSlot .meta0 = some m → ms.readSlot .meta1 = some m' →
    m.version ≠ m'.version

theorem sound_empty : (⟨none, none⟩ : MetaStore).Sound where
  version_pos slot m h := by cases slot <;> exact absurd h (by simp [readSlot, file])
  version_ne m m' h := absurd h (by simp [readSlot, file])

/-- The slot that is not overwritten by the next save. -/
def kept : Slot :=
  if ms.version .meta1 < ms.version .meta0 then .meta0 else .meta1

theorem kept_ne_target : ms.kept ≠ ms.target := by
  rw [kept, target]
  split <;> simp

variable {ms : MetaStore}

theorem Sound.load_eq (h : ms.Sound) : ms.load = (ms.readSlot ms.kept).getD {} := by
  have hpos := h.version_pos
  have hne := h.version_ne
  rw [load, kept, version, version]
  cases h0 : ms.readSlot .meta0 with
  | none => cases h1 : ms.readSlot .meta1 <;> simp [h1]
  | some m0 =>
    have hp0 := hpos _ _ h0
    cases h1 : ms.readSlot .meta1 with
    | none => simp [h0, hp0]
    | some m1 =>
      have hm := hne m0 m1 h0 h1
      by_cases hlt : m1.version < m0.version
      · simp [h0, hlt, hlt.le]
      · simp [h1, hlt, lt_of_le_of_ne (not_lt.mp hlt) hm]

theorem Sound.version_load (h : ms.Sound) :
    ms.load.version = max (ms.version .meta0) (ms.version .meta1) := by
  rw [h.load_eq, kept]
  split
  · rename_i hlt
    exact (max_eq_left hlt.le).symm
  · rename_i hle
    exact (max_eq_right (not_lt.mp hle)).symm

/-- What any write to the target slot leaves: the slot that `Load` reads. -/
theorem readSlot_kept_write (ms : MetaStore) (buf : Bytes) :
    (ms.write ms.target buf).readSlot ms.kept = ms.readSlot ms.kept := by
  rw [readSlot, file_write_of_ne ms ms.kept_ne_target, readSlot]

omit [MetaDataCodec] in
theorem Slot.eq_or_eq {a b : Slot} (h : a ≠ b) (slot : Slot) : slot = a ∨ slot = b := by
  cases slot <;> cases a <;> cases b <;> simp_all

/-- Soundness, in terms of the slot that is kept and the one that is overwritten. -/
theorem sound_iff {a b : Slot} (hab : a ≠ b) :
    ms.Sound ↔ (∀ m, ms.readSlot a = some m → 0 < m.version) ∧
      (∀ m, ms.readSlot b = some m → 0 < m.version) ∧
      ∀ m m', ms.readSlot a = some m → ms.readSlot b = some m' → m.version ≠ m'.version := by
  constructor
  · refine fun h ↦ ⟨h.version_pos a, h.version_pos b, fun m m' hm hm' ↦ ?_⟩
    cases a <;> cases b
    · exact absurd rfl hab
    · exact h.version_ne m m' hm hm'
    · exact (h.version_ne m' m hm' hm).symm
    · exact absurd rfl hab
  · refine fun ⟨ha, hb, hne⟩ ↦ ⟨fun slot m hm ↦ ?_, fun m m' hm hm' ↦ ?_⟩
    · obtain rfl | rfl := Slot.eq_or_eq hab slot
      · exact ha m hm
      · exact hb m hm
    · cases a <;> cases b
      · exact absurd rfl hab
      · exact hne m m' hm hm'
      · exact (hne m' m hm' hm).symm
      · exact absurd rfl hab

theorem version_le_max (ms : MetaStore) (slot : Slot) :
    ms.version slot ≤ max (ms.version .meta0) (ms.version .meta1) := by
  cases slot
  · exact le_max_left ..
  · exact le_max_right ..

section

variable (h : ms.Sound)
include h

theorem Sound.save (levels : List (List ℕ)) : (ms.save levels).Sound := by
  rw [MetaStore.save, sound_iff ms.kept_ne_target, readSlot_kept_write, readSlot_write_slotBytes]
  refine ⟨h.version_pos ms.kept, fun m hm ↦ ?_, fun m m' hm hm' ↦ ?_⟩
  · obtain rfl : ms.saved levels = m := by simpa using hm
    exact succ_pos _
  · obtain rfl : ms.saved levels = m' := by simpa using hm'
    have hle := ms.version_le_max ms.kept
    rw [version, hm, getD_some] at hle
    exact (lt_succ_of_le hle).ne

theorem Sound.torn {buf : Bytes} (hbuf : verify buf = none) : (ms.write ms.target buf).Sound := by
  rw [sound_iff ms.kept_ne_target, readSlot_kept_write, readSlot_write_torn ms ms.target hbuf]
  refine ⟨h.version_pos ms.kept, by simp, fun m m' _ hm' ↦ ?_⟩
  cases hm'

theorem Sound.readSlot_eq_none (hv : ms.version slot = 0) : ms.readSlot slot = none := by
  cases hm : ms.readSlot slot with
  | none => rfl
  | some m =>
    rw [version, hm, getD_some] at hv
    exact absurd hv (h.version_pos slot m hm).ne'

theorem Sound.load_eq_of_le {a b : Slot} (hab : a ≠ b) (hle : ms.version b ≤ ms.version a) :
    ms.load = (ms.readSlot a).getD {} := by
  have hmax : ms.version ms.kept = max (ms.version .meta0) (ms.version .meta1) := by
    rw [← h.version_load, h.load_eq, version]
  rw [h.load_eq]
  obtain hk | hk := Slot.eq_or_eq hab ms.kept
  · rw [hk]
  · -- the versions are equal, and so both slots are unreadable
    have hge : ms.version a ≤ ms.version b := by
      rw [← hk, hmax]
      exact ms.version_le_max a
    have heq := le_antisymm hle hge
    have hnone : ms.version b = 0 := by
      by_contra h0
      cases ha : ms.readSlot a with
      | none => exact h0 (by rw [heq, version, ha]; rfl)
      | some m =>
        cases hb : ms.readSlot b with
        | none => exact h0 (by rw [version, hb]; rfl)
        | some m' =>
          rw [version, version, ha, hb, getD_some, getD_some] at heq
          exact ((sound_iff hab).mp h).2.2 m m' ha hb heq.symm
    rw [hk, h.readSlot_eq_none hnone, h.readSlot_eq_none (heq.symm.trans hnone)]

theorem Sound.load_save (levels : List (List ℕ)) :
    (ms.save levels).load = ⟨ms.load.version + 1, levels⟩ := by
  have hread : (ms.save levels).readSlot ms.target = some (ms.saved levels) :=
    readSlot_write_slotBytes ..
  have hkept : (ms.save levels).version ms.kept = ms.version ms.kept := by
    rw [version, MetaStore.save, readSlot_kept_write, version]
  have hle : (ms.save levels).version ms.kept ≤ (ms.save levels).version ms.target := by
    rw [hkept, version.eq_def _ ms.target, hread]
    exact (ms.version_le_max ms.kept).trans (le_succ _)
  rw [(h.save levels).load_eq_of_le ms.kept_ne_target.symm hle, hread, getD_some, saved,
    h.version_load]

theorem Sound.load_torn {buf : Bytes} (hbuf : verify buf = none) :
    (ms.write ms.target buf).load = ms.load := by
  have htarget : (ms.write ms.target buf).version ms.target = 0 := by
    rw [version, readSlot_write_torn ms ms.target hbuf]
    rfl
  rw [(h.torn hbuf).load_eq_of_le ms.kept_ne_target (htarget ▸ zero_le _), readSlot_kept_write,
    h.load_eq]

end

/-! ## Sequences of saves -/

/-- A call of `Save`, and how it ends. -/
inductive SaveCall where
  /-- It returns. -/
  | completed (levels : List (List ℕ))
  /-- A crash after the slot was written, before the call returned. -/
  | written (levels : List (List ℕ))
  /-- A crash that leaves bytes which do not verify. -/
  | torn (levels : List (List ℕ)) (left : {buf : Bytes // verify buf = none})

/-- What the call left on disk. -/
def SaveCall.saved? : SaveCall → Option (List (List ℕ))
  | .completed levels => some levels
  | .written levels => some levels
  | .torn _ _ => none

def call (ms : MetaStore) : SaveCall → MetaStore
  | .completed levels => ms.save levels
  | .written levels => ms.save levels
  | .torn _ left => ms.write ms.target left

variable (calls : List SaveCall)

/-- Calls in a fresh directory. -/
def run : MetaStore := calls.foldl call {}

/-- The metadata after these saves reached the disk. -/
def latest (saves : List (List (List ℕ))) : MetaData := ⟨saves.length, saves.getLast?.getD []⟩

theorem run_append (c : SaveCall) : run (calls ++ [c]) = (run calls).call c := by
  rw [run, foldl_append, foldl_cons, foldl_nil, run]

theorem Sound.call (h : ms.Sound) (c : SaveCall) : (ms.call c).Sound := by
  cases c with
  | completed levels => exact h.save levels
  | written levels => exact h.save levels
  | torn levels left => exact h.torn left.2

theorem Sound.load_call (h : ms.Sound) (c : SaveCall) :
    (ms.call c).load = (c.saved?.map fun levels ↦ ⟨ms.load.version + 1, levels⟩).getD ms.load := by
  cases c with
  | completed levels => exact h.load_save levels
  | written levels => exact h.load_save levels
  | torn levels left => exact h.load_torn left.2

theorem sound_run : (run calls).Sound := by
  induction calls using List.reverseRecOn with
  | nil => exact sound_empty
  | append_singleton calls c ih =>
    rw [run_append]
    exact ih.call c

theorem load_run : (run calls).load = latest (calls.filterMap SaveCall.saved?) := by
  induction calls using List.reverseRecOn with
  | nil => rfl
  | append_singleton calls c ih =>
    rw [run_append, (sound_run calls).load_call c, ih, filterMap_append]
    cases hc : c.saved? with
    | none => simp [hc]
    | some levels => simp [hc, latest]

theorem version_load_le_call (c : SaveCall) :
    (run calls).load.version ≤ ((run calls).call c).load.version := by
  rw [(sound_run calls).load_call c]
  cases c.saved? with
  | none => exact le_rfl
  | some levels => exact le_succ _

/-- A slot that holds what `Load` returns is not touched by the next call. -/
theorem file_call (h : ms.Sound) (hslot : ms.readSlot slot = some ms.load) (c : SaveCall) :
    (ms.call c).file slot = ms.file slot := by
  have hne : slot ≠ ms.target := by
    rintro rfl
    rw [h.load_eq] at hslot
    cases hk : ms.readSlot ms.kept with
    | none =>
      rw [hk, getD_none] at hslot
      exact absurd (h.version_pos _ _ hslot) (lt_irrefl 0)
    | some m =>
      rw [hk, getD_some] at hslot
      exact ((sound_iff ms.kept_ne_target).mp h).2.2 m m hk hslot rfl
  cases c with
  | completed levels => exact file_write_of_ne ms hne _
  | written levels => exact file_write_of_ne ms hne _
  | torn levels left => exact file_write_of_ne ms hne _

/-- After any sequence of saves, each of which may be interrupted, `Load` returns the metadata of
the last one that reached the disk. Its version never decreases, and no save touches the slot that
`Load` returned. -/
theorem crash_safe (calls : List SaveCall) :
    (run calls).load = latest (calls.filterMap SaveCall.saved?) ∧
      ∀ c, (run calls).load.version ≤ (run (calls ++ [c])).load.version ∧
        ∀ slot, (run calls).readSlot slot = some (run calls).load →
          (run (calls ++ [c])).file slot = (run calls).file slot := by
  refine ⟨load_run calls, fun c ↦ ?_⟩
  rw [run_append]
  exact ⟨version_load_le_call calls c, fun slot hslot ↦ file_call (sound_run calls) hslot c⟩

end Codec

/-- One save, and a second one interrupted with its slot emptied. -/
theorem crash_safe_torn_second :
    (run [.completed [[1]]]).readSlot .meta0 = some (run [.completed [[1]]]).load ∧
      (run ([.completed [[1]]] ++ [.torn [[2], [1]] ⟨[], rfl⟩])).file .meta0 =
        (run [.completed [[1]]]).file .meta0 :=
  have h : (run [.completed [[1]]]).readSlot .meta0 = some (run [.completed [[1]]]).load := by
    decide +kernel
  ⟨h, ((crash_safe [.completed [[1]]]).2 (.torn [[2], [1]] ⟨[], rfl⟩)).2 .meta0 h⟩

end MetaStore

end DucklingDB.Lsm
