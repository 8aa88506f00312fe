import Cornus.BlockCache.MemStore
import Cornus.BlockCache.Laws

/-!
# The in-memory store satisfies the store laws

The one shape condition is that a presence bitmap never outlives its chunk.
`WriteChunk` is the operation that can break it, when its hash comparison fails
on a chunk that still has a bitmap; the laws therefore only speak about a
partial `WriteChunk` on a chunk that is cached as a whole or not at all.
-/

namespace Cornus.BlockCache

open Function Option Padded

namespace MemStore

variable {Hash : Type} (bucket : Option (MemEntry Hash))

/-- A presence bitmap belongs to a chunk that is held. -/
def Sound : Prop :=
  ∀ idx, (entry bucket).chunks idx = none → (entry bucket).present idx = none

/-- The chunk is held, and the byte's sub-block is present in it. -/
def Marked (idx index : Nat) : Prop :=
  ∃ data, (entry bucket).chunks idx = some data ∧
    ∀ bitmap, (entry bucket).present idx = some bitmap → bitmap.get (index / subBlockSize) = true

/-- A byte of a held chunk. -/
def byte (idx index : Nat) : UInt8 :=
  (((entry bucket).chunks idx).getD (Padded.blank 0)).get index

/-- The chunk is held up to this length. -/
def Holds (idx length : Nat) : Prop :=
  ∃ data, (entry bucket).chunks idx = some data ∧ length ≤ data.len

/-- The chunk is held without a presence bitmap. -/
def Whole (idx : Nat) : Prop :=
  ∃ data, (entry bucket).chunks idx = some data ∧ (entry bucket).present idx = none

/-- The chunk is not held. -/
def Vacant (idx : Nat) : Prop :=
  (entry bucket).chunks idx = none

/-- A write-through finds the chunk. -/
def Splices (idx _chunkOff _length : Nat) : Prop :=
  ∃ data, (entry bucket).chunks idx = some data

@[simp] theorem entry_some (file : MemEntry Hash) : entry (some file) = file := rfl

@[simp] theorem entry_none : entry (none : Option (MemEntry Hash)) =
    newMemEntry := rfl

end MemStore

open MemStore in
/-- What an entry in memory stands for. -/
def memView (Hash : Type) : View (MemEntry Hash) :=
  { Sound
    Marked
    byte
    Holds
    Whole
    Vacant
    Splices
    Ready := fun _ _ _ _ => True }

namespace MemStore

variable {Hash : Type}

theorem frame_of_agree (sound : Sound before) (chunks : ∀ other, other ≠ idx →
      after.chunks other = (entry before).chunks other)
    (present : ∀ other, other ≠ idx → after.present other = (entry before).present other)
    (here : after.chunks idx = none → after.present idx = none) :
    View.Frame (memView Hash) chunk before (some after) idx where
  sound := by
    intro other absent
    by_cases same : other = idx
    · subst same
      exact here absent
    · simp only [entry_some] at absent ⊢
      rw [present other same]
      exact sound other (by rw [← chunks other same]; exact absent)
  marked := by
    intro other index ne _
    simp [memView, Marked, chunks other ne, present other ne]
  byte := by
    intro other index ne _
    simp [memView, byte, chunks other ne]
  holds := by
    rintro other length ne ⟨data, stored, within⟩
    exact ⟨data, by simp [chunks other ne, stored], within⟩
  whole := by
    rintro other ne ⟨data, stored, clear⟩
    exact ⟨data, by simp [chunks other ne, stored],
      by simp [present other ne, clear]⟩
  vacant := by
    intro other ne absent
    have before : (entry before).chunks other = none := absent
    simp [memView, Vacant, chunks other ne, before]
  splices := by
    rintro other off length ne _ _ ⟨data, stored⟩
    rw [entry_some, chunks other ne] at stored
    exact ⟨data, stored⟩
  ready := fun _ _ _ _ _ => trivial

variable {data : Bytes}

theorem overwrites_of_replaced (sound : Sound before) (chunks : after.chunks =
      update (entry before).chunks idx (some data))
    (present : after.present = update (entry before).present idx none) :
    View.Overwrites (memView Hash) chunk before (some after) idx data where
  toFrame := frame_of_agree sound (by intro other ne; simp [chunks, ne])
    (by intro other ne; simp [present, ne])
    (by simp [present])
  inside := by
    intro index _
    simp [memView, byte, chunks]
  beyond := by
    intro index past _
    left
    have padded := Bytes.zero_of_past data past
    simpa [memView, byte, chunks] using padded
  becomesWhole := ⟨data, by simp [chunks], by simp [present]⟩

theorem markSpan_get (bitmap : Padded Bool) (off length sub : Nat)
    (marked : (markSpan bitmap off length).get sub = true) :
    bitmap.get sub = true ∨ ((subSpan off length).1 ≤ sub ∧ sub ≤ (subSpan off length).2) := by
  rw [markSpan, setRange_get] at marked
  split_ifs at marked with inside
  · right
    have ordered := subSpan_le off length
    simp only [spanCount] at inside
    omega
  · exact .inl marked

variable {bucket file : MemEntry Hash} {index : Nat}

theorem rangePresent_marked
    (present : rangePresent bucket idx off length = true) (touched : Touched off length index) :
    Marked (some bucket) idx index := by
  unfold rangePresent at present
  cases stored : bucket.chunks idx with
  | none => simp [stored] at present
  | some data =>
    refine ⟨data, stored, ?_⟩
    intro bitmap partly
    simp only [entry_some] at partly
    simp only [stored, partly] at present
    rw [allRange_span_iff] at present
    exact present _ touched.1 touched.2

variable {off length : Nat}

theorem marked_rangePresent (nonempty : 0 < length)
    (marked : ∀ index, index < length → Marked (some bucket) idx (off + index)) :
    rangePresent bucket idx off length = true := by
  obtain ⟨data, stored, _⟩ := marked 0 nonempty
  simp only [entry_some] at stored
  unfold rangePresent
  rw [stored]
  cases partly : bucket.present idx with
  | none => rfl
  | some bitmap =>
    simp only [allRange_span_iff]
    intro sub above below
    obtain ⟨index, start, finish, here⟩ := exists_inside_of_span nonempty above below
    obtain ⟨_, _, set⟩ := marked (index - off) (by omega)
    have exactly : off + (index - off) = index := by omega
    rw [exactly, here] at set
    exact set bitmap partly

variable {bucket : Option (MemEntry Hash)}

theorem get_spec (found : get bucket idx length = some data) :
    data.len ≤ length ∧ Whole bucket idx ∧ ∀ index, index < data.len →
      data.get index = byte bucket idx index := by
  cases bucket with
  | none => simp [get] at found
  | some file =>
    cases stored : file.chunks idx with
    | none => simp [get, stored] at found
    | some cached =>
      cases partly : file.present idx with
      | some bitmap => simp [get, stored, partly] at found
      | none =>
        simp only [get, bind_eq_bind, bind_some, stored,
          partly, isSome_none, Bool.false_eq_true, if_false, some.injEq] at found
        subst found
        refine ⟨Nat.min_le_left _ _, ⟨cached, stored, partly⟩, ?_⟩
        intro index below
        have inside : index < min length cached.len := below
        rw [resize_get_of_lt _ inside]
        simp [byte, stored]

theorem getSub_spec (found : getSub bucket idx subOff length = some data) :
    data.len = length ∧ ∀ index, index < length → Marked bucket idx (subOff + index) ∧
        data.get index = byte bucket idx (subOff + index) := by
  cases bucket with
  | none => simp [getSub] at found
  | some file =>
    cases stored : file.chunks idx with
    | none => simp [getSub, stored] at found
    | some cached =>
      simp only [getSub, bind_eq_bind, bind_some, stored] at found
      split_ifs at found with missing short
      simp only [some.injEq] at found
      subst found
      refine ⟨rfl, ?_⟩
      intro index below
      have present : rangePresent file idx subOff length = true := by
        simpa using missing
      refine ⟨rangePresent_marked present (touched_of_inside (by omega) (by omega)), ?_⟩
      rw [slice_get_of_lt _ below]
      simp [byte, stored]

theorem bytes_eq_slice (stored : file.chunks idx = some data) :
    (memView Hash).bytes (some file) idx off length = data.slice off length := by
  apply ext_get
  · rfl
  · intro index below
    have within : index < length := below
    simp [View.bytes, memView, byte, stored, within, slice_get]

variable {hash : Hash}

theorem hashRange_spec (found : hashRange hashChunk bucket idx off length = some hash) :
    hash = hashChunk ((memView Hash).bytes bucket idx off length) ∧
      ∀ index, index < length → Marked bucket idx (off + index) := by
  cases bucket with
  | none => simp [hashRange] at found
  | some file =>
    cases stored : file.chunks idx with
    | none => simp [hashRange, stored] at found
    | some cached =>
      simp only [hashRange, bind_eq_bind, bind_some, stored] at found
      split_ifs at found with short missing
      simp only [some.injEq] at found
      have present : rangePresent file idx off length = true := by
        simpa using missing
      refine ⟨?_, ?_⟩
      · rw [bytes_eq_slice stored, found]
      · intro index below
        exact rangePresent_marked present (touched_of_inside (by omega) (by omega))

theorem hashRange_some (nonempty : 0 < length)
    (marked : ∀ index, index < length → Marked bucket idx (off + index))
    (held : Holds bucket idx (off + length)) :
    ∃ hash, hashRange hashChunk bucket idx off length = some hash := by
  cases bucket with
  | none =>
    obtain ⟨data, stored, _⟩ := held
    simp [newMemEntry] at stored
  | some file =>
    obtain ⟨data, stored, within⟩ := held
    simp only [entry_some] at stored
    refine ⟨hashChunk (data.slice off length), ?_⟩
    have present := marked_rangePresent nonempty marked
    simp [hashRange, stored, present, Nat.not_lt.mpr within]

theorem splicesIn_of_spliced (sound : Sound before)
    (chunks : after.chunks = update (entry before).chunks idx
      (some ((((entry before).chunks idx).getD (Padded.blank 0)).splice off data)))
    (others : ∀ other, other ≠ idx → after.present other = (entry before).present other)
    (whole : Whole before idx → after.present idx = none) (partly : ¬Whole before idx → ∃ bitmap,
      after.present idx = some (markSpan bitmap off data.len) ∧ ∀ sub, bitmap.get sub = true →
          (entry before).present idx = some bitmap) :
    View.SplicesIn (memView Hash) chunk before (some after) idx off data where
  toFrame := by
    apply frame_of_agree sound
    · intro other ne
      simp [chunks, ne]
    · exact others
    · simp [chunks]
  inside := by
    intro index above below
    simp [memView, byte, chunks, splice_get, above, below]
  outside := by
    intro index outside _
    simp [memView, byte, chunks, splice_get_outside _ outside]
  newMarks := by
    rintro index _ ⟨now, _, marks⟩
    by_cases already : Whole before idx
    · left
      obtain ⟨cached, stored, clear⟩ := already
      exact ⟨cached, stored, by simp [clear]⟩
    · obtain ⟨bitmap, found, inherited⟩ := partly already
      rcases markSpan_get _ _ _ _ (marks _ found) with old | touched
      · left
        have kept := inherited _ old
        cases stored : (entry before).chunks idx with
        | none => simp [sound idx stored] at kept
        | some cached =>
          refine ⟨cached, stored, ?_⟩
          intro other equality
          rw [kept] at equality
          cases equality
          exact old
      · exact .inr touched
  staysWhole := by
    intro already
    exact ⟨_, by rw [entry_some, chunks, update_self], whole already⟩
  keepsHolding := by
    rintro length ⟨cached, stored, within⟩
    refine ⟨_, by rw [entry_some, chunks, update_self], ?_⟩
    rw [stored]
    simp only [getD_some, splice_len]
    omega
  reaches := by
    refine ⟨_, by rw [entry_some, chunks, update_self], ?_⟩
    exact Nat.le_max_right _ _

theorem putSub_spec (sound : Sound bucket) : View.SplicesIn (memView Hash) chunk bucket
      (putSub chunk bucket idx subOff data) idx subOff data := by
  apply splicesIn_of_spliced sound
  · rfl
  · intro other ne
    dsimp only
    split_ifs
    · rfl
    · simp [ne]
  · rintro ⟨cached, stored, clear⟩
    simp [stored, clear]
  · intro notWhole
    have wasPartial : ((entry bucket).chunks idx).isSome = true →
        (entry bucket).present idx ≠ none := by
      intro stored clear
      obtain ⟨cached, equality⟩ := isSome_iff_exists.mp stored
      exact notWhole ⟨cached, equality, clear⟩
    refine ⟨((entry bucket).present idx).getD (Padded.blank (bitmapBits chunk.subs)), ?_, ?_⟩
    · have notFull : ¬(((entry bucket).chunks idx).isSome &&
          ((entry bucket).present idx).isNone) = true := by
        simpa [isNone_iff_eq_none] using wasPartial
      simp only [if_neg notFull, update_self]
    · intro sub set
      cases partly : (entry bucket).present idx with
      | none => simp [partly] at set
      | some bitmap => rfl

variable {chunkOff chunkLen : Nat}

theorem writeThrough_partial [Inhabited Hash] (sound : Sound bucket)
    (notFull : ¬(chunkOff = 0 ∧ data.len = chunkLen))
    (splices : Splices bucket idx chunkOff data.len) : View.SplicesIn (memView Hash) chunk bucket
      (writeThrough chunk bucket idx chunkOff data chunkLen) idx chunkOff data := by
  obtain ⟨cached, stored⟩ := splices
  simp only [writeThrough, if_neg notFull, stored]
  apply splicesIn_of_spliced sound
  · simp [stored]
  · intro other ne
    simp [ne]
  · rintro ⟨_, _, clear⟩
    simp [clear]
  · intro notWhole
    cases partly : (entry bucket).present idx with
    | none => exact (notWhole ⟨cached, stored, partly⟩).elim
    | some bitmap => exact ⟨bitmap, by simp, fun _ _ => rfl⟩

theorem merged_eq {file : Option (MemEntry Hash)}
    (stored : (entry file).chunks idx = some cached) (fits : off + data.len ≤ length) :
    ((cached.resize length).splice off data).resize length =
      ((memView Hash).bytes file idx 0 length).splice off data := by
  apply ext_get
  · simp [View.bytes]
    omega
  · intro index below
    have within : index < length := below
    rw [resize_get_of_lt _ within]
    simp [splice_get, View.bytes, resize_get, within, memView, byte, stored]

section

variable (sound : Sound bucket) (fits : chunkOff + data.len ≤ chunkLen)
  (notFull : ¬(chunkOff = 0 ∧ data.len = chunkLen)) (whole : Whole bucket idx)
include sound fits notFull whole

theorem writeChunk_match [DecidableEq Hash]
    (same : hashChunk (((memView Hash).bytes bucket idx 0 chunkLen).splice chunkOff data) = hash) :
    View.Overwrites (memView Hash) chunk bucket
      (writeChunk hashChunk chunk bucket idx chunkOff data chunkLen hash) idx
      (((memView Hash).bytes bucket idx 0 chunkLen).splice chunkOff data) := by
  obtain ⟨cached, stored, clear⟩ := whole
  simp only [writeChunk, if_neg notFull, stored, merged_eq stored fits, same, if_true]
  apply overwrites_of_replaced sound
  · rfl
  · funext other
    by_cases here : other = idx
    · subst here
      simp [clear]
    · simp [here]

theorem writeChunk_mismatch [DecidableEq Hash]
    (differ : hashChunk (((memView Hash).bytes bucket idx 0 chunkLen).splice
      chunkOff data) ≠ hash) : View.Drops (memView Hash) chunk bucket
      (writeChunk hashChunk chunk bucket idx chunkOff data chunkLen hash) idx
      chunkOff data.len := by
  obtain ⟨cached, stored, clear⟩ := whole
  simp only [writeChunk, if_neg notFull, stored, merged_eq stored fits, if_neg differ]
  constructor
  · apply frame_of_agree sound
    · intro other ne
      simp [ne]
    · intro other ne
      rfl
    · intro _
      exact clear
  · simp [memView, Vacant]
  · intro index _ _
    left
    simp [memView, byte]
    rfl

end

theorem forget_drops (sound : Sound bucket)
    (chunks : file.chunks = update (entry bucket).chunks idx none)
    (present : file.present = update (entry bucket).present idx none) :
    View.Drops (memView Hash) chunk bucket (some file) idx 0 0 where
  toFrame := by
    apply frame_of_agree sound
    · intro other ne
      simp [chunks, ne]
    · intro other ne
      simp [present, ne]
    · simp [present]
  becomesVacant := by
    simp [memView, Vacant, chunks]
  outside := by
    intro index _ _
    left
    simp [memView, byte, chunks]
    rfl

theorem drop_spec (sound : Sound bucket) :
    View.Drops (memView Hash) chunk bucket (drop bucket idx) idx 0 0 := by
  cases bucket with
  | some file => exact forget_drops sound rfl rfl
  | none =>
    constructor
    · exact View.Frame.refl sound idx
    · rfl
    · intro index _ _
      exact .inl rfl

theorem resize_survivor (stored : (entry (resize chunk bucket newSize)).chunks idx = some data) :
    idx < newSize / chunk.bytes ∧ (entry bucket).chunks idx = some data ∧
      (entry (resize chunk bucket newSize)).present idx = (entry bucket).present idx := by
  simp only [resize, entry_some] at stored ⊢
  by_cases straddles : 0 < (entry bucket).curSize ∧ idx = ((entry bucket).curSize - 1) / chunk.bytes
  · simp [straddles.1, forget, ← straddles.2] at stored
  have kept : ¬(newSize / chunk.bytes ≤ idx ∧ ((entry bucket).chunks idx).isSome = true) := by
    intro gone
    split_ifs at stored
    · by_cases here : idx = ((entry bucket).curSize - 1) / chunk.bytes
      · exact straddles ⟨by assumption, here⟩
      · simp [forget, here, gone] at stored
    · simp [gone] at stored
  split_ifs at stored ⊢ with nonempty
  · have ne : idx ≠ ((entry bucket).curSize - 1) / chunk.bytes :=
      fun here => straddles ⟨nonempty, here⟩
    simp only [forget, update_of_ne ne, if_neg kept] at stored ⊢
    refine ⟨?_, stored, trivial⟩
    simp [stored] at kept
    exact kept
  · simp only [if_neg kept] at stored ⊢
    refine ⟨?_, stored, trivial⟩
    simp [stored] at kept
    exact kept

theorem resize_sound (sound : Sound bucket) : Sound (resize chunk bucket newSize) := by
  intro idx absent
  have clear : ∀ idx, (entry bucket).chunks idx = none → (entry bucket).present idx = none := sound
  simp only [resize, entry_some] at absent ⊢
  split_ifs at absent ⊢ with nonempty
  · by_cases here : idx = ((entry bucket).curSize - 1) / chunk.bytes
    · simp [forget, ← here]
    simp only [forget, update_of_ne here] at absent ⊢
    split_ifs at absent ⊢ with gone
    · rfl
    · exact clear idx absent
  · simp only at absent ⊢
    split_ifs at absent ⊢ with gone
    · rfl
    · exact clear idx absent

theorem resize_marked (marked : Marked (resize chunk bucket newSize) idx index) :
    Marked bucket idx index ∧ byte (resize chunk bucket newSize) idx index =
        byte bucket idx index := by
  obtain ⟨data, stored, bits⟩ := marked
  obtain ⟨_, before, same⟩ := resize_survivor stored
  refine ⟨⟨data, before, ?_⟩, ?_⟩
  · intro bitmap partly
    exact bits bitmap (by rw [same, partly])
  · simp [byte, stored, before]

theorem resize_beyond (inChunk : index < chunk.bytes) (past : newSize ≤ idx * chunk.bytes + index) :
    byte (resize chunk bucket newSize) idx index = 0 := by
  cases stored : (entry (resize chunk bucket newSize)).chunks idx with
  | none =>
    simp only [byte, stored]
    rfl
  | some data =>
    obtain ⟨below, _, _⟩ := resize_survivor stored
    have wholly : (idx + 1) * chunk.bytes ≤ newSize :=
      Nat.le_trans (Nat.mul_le_mul_right _ below) (Nat.div_mul_le_self newSize chunk.bytes)
    rw [Nat.add_mul] at wholly
    omega

theorem resize_uniform (uniform : Whole bucket idx ∨ Vacant bucket idx) :
    Whole (resize chunk bucket newSize) idx ∨ Vacant (resize chunk bucket newSize) idx := by
  cases stored : (entry (resize chunk bucket newSize)).chunks idx with
  | none => exact .inr stored
  | some data =>
    left
    obtain ⟨_, before, same⟩ := resize_survivor stored
    refine ⟨data, stored, ?_⟩
    rcases uniform with ⟨_, _, clear⟩ | vacant
    · rw [same, clear]
    · rw [Vacant, before] at vacant
      cases vacant

end MemStore

open MemStore in
/-- The store in memory follows the laws of a view. -/
theorem memView_lawful {Hash : Type} [Inhabited Hash] [DecidableEq Hash]
    (hashChunk : Bytes → Hash) (chunk : ChunkSize) :
    (memView Hash).Lawful hashChunk chunk (memStore hashChunk chunk) where
  sound_none := fun _ _ => rfl
  vacant_none := fun _ => rfl
  byte_none := fun _ _ => rfl
  vacant_marked := by
    rintro bucket idx index _ vacant _ ⟨data, stored, _⟩
    have absent : (entry bucket).chunks idx = none := vacant
    rw [absent] at stored
    cases stored
  holds_le := by
    rintro bucket idx length longer shorter ⟨data, stored, within⟩
    exact ⟨data, stored, Nat.le_trans shorter within⟩
  marked_sub := by
    rintro bucket idx left right same ⟨data, stored, bits⟩
    refine ⟨data, stored, ?_⟩
    intro bitmap present
    rw [← same]
    exact bits bitmap present
  whole_marked := by
    rintro bucket idx index ⟨data, stored, clear⟩
    exact ⟨data, stored, by simp [clear]⟩
  get_spec := fun found => get_spec found
  getSub_spec := fun _ _ found => getSub_spec found
  hashRange_spec := fun _ _ found => hashRange_spec found
  hashRange_some := fun _ nonempty _ marked held =>
    hashRange_some nonempty marked held
  putHashed_spec := fun sound _ => overwrites_of_replaced sound rfl rfl
  putSub_spec := fun sound _ _ => putSub_spec sound
  writeThrough_full := by
    intro bucket idx data sound _
    simp only [memStore, writeThrough, and_self, if_true]
    exact overwrites_of_replaced sound rfl rfl
  writeThrough_partial := fun sound _ _ notFull splices =>
    writeThrough_partial sound notFull splices
  writeThrough_skip := by
    intro bucket idx chunkOff data chunkLen notFull skipped
    have absent : (entry bucket).chunks idx = none := by
      cases stored : (entry bucket).chunks idx with
      | none => rfl
      | some cached => exact (skipped ⟨cached, stored⟩).elim
    simp only [memStore, writeThrough, if_neg notFull, absent]
  unspliced_unmarked := by
    rintro bucket idx chunkOff length index _ _ skipped _ ⟨data, stored, _⟩
    exact skipped ⟨data, stored⟩
  vacant_unspliced := by
    rintro bucket idx chunkOff length _ _ _ vacant ⟨data, stored⟩
    have absent : (entry bucket).chunks idx = none := vacant
    rw [absent] at stored
    cases stored
  writeChunk_full := by
    intro bucket idx data hash sound _
    simp only [memStore, writeChunk, and_self, if_true]
    exact overwrites_of_replaced sound rfl rfl
  writeChunk_vacant := by
    intro bucket idx chunkOff data chunkLen hash notFull vacant
    have absent : (entry bucket).chunks idx = none := vacant
    simp only [memStore, writeChunk, if_neg notFull, absent]
  writeChunk_match := fun sound fits _ notFull whole _ same =>
    writeChunk_match sound fits notFull whole same
  writeChunk_mismatch := fun sound fits _ notFull whole _ differ =>
    writeChunk_mismatch sound fits notFull whole differ
  drop_spec
  resize_sound
  resize_marked := by
    intro bucket newSize idx index _ _ marked
    obtain ⟨before, same⟩ := resize_marked marked
    exact ⟨before, fun _ => same⟩
  resize_beyond := fun _ inChunk past => resize_beyond inChunk past
  resize_uniform := fun _ uniform => resize_uniform uniform
  setHint_sound := fun sound => sound
  setHint_marked := Iff.rfl
  setHint_byte := rfl
  setHint_whole := Iff.rfl
  setHint_vacant := Iff.rfl

end Cornus.BlockCache
