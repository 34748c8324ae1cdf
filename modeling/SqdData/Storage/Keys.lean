import SqdData.ByteKeys
import SqdData.Storage.Maintenance

/-!
# Keys of the column families

All datasets share one column family for chunks and one for each hash index. Entries are told apart
by their keys alone: 48 bytes of dataset id, padded with zeros, then the last block of the chunk as
a big-endian number, or the text of the hash.

The families of `Db` are ordered by dataset and position. Here the same families are stores under
byte keys. `ChunkIterator` and `purge_hash_index` are written over the bytes, and shown to do what
the listings and the purge of `Db` do.
-/

namespace Storage

open List

open ByteKeys

def isValidByte (b : Fin 256) : Bool :=
  (48 ≤ b.val && b.val ≤ 57) || (65 ≤ b.val && b.val ≤ 90) || (97 ≤ b.val && b.val ≤ 122) ||
    b.val = 45 || b.val = 95

/-- `SID<48>`: a short text of letters, digits, dashes and underscores, with zeros behind it. -/
structure Sid where
  bytes : Key
  size : bytes.length = 48
  trailing : ∀ b ∈ bytes.dropWhile (· ≠ 0), b = 0
  valid : ∀ b ∈ bytes.takeWhile (· ≠ 0), isValidByte b = true
deriving DecidableEq

namespace Sid

def tryNew (bytes : Key) (size : bytes.length = 48) : Except String Sid :=
  if trailing : ∀ b ∈ bytes.dropWhile (· ≠ 0), b = 0 then
    if valid : ∀ b ∈ bytes.takeWhile (· ≠ 0), isValidByte b = true then
      .ok ⟨bytes, size, trailing, valid⟩
    else .error "only ascii alphanumeric, '-' and '_' characters are allowed in SID strings"
  else .error "only trailing 0 bytes are allowed in SID"

/-- `SID::try_from` of bytes. -/
def tryFrom (value : Key) : Except String Sid :=
  if h : value.length ≤ 48 then tryNew (pad 0 48 value) (length_pad h)
  else .error "binary string is too long"

def text (id : Sid) : Key := id.bytes.takeWhile (· ≠ 0)

def asStr (id : Sid) : DatasetId := String.ofList (id.text.map fun b => Char.ofNat b.val)

theorem ext {a b : Sid} (h : a.bytes = b.bytes) : a = b := by
  cases a; cases b; cases h; rfl

theorem tryNew_bytes (id : Sid) (size : id.bytes.length = 48) : tryNew id.bytes size = .ok id := by
  unfold tryNew
  rw [dif_pos id.trailing, dif_pos id.valid]

theorem tryFrom_bytes (id : Sid) : tryFrom id.bytes = .ok id := by
  have hp : pad 0 48 id.bytes = id.bytes := by simp [pad, id.size]
  unfold tryFrom
  rw [dif_pos id.size.le]
  simp only [hp]
  exact tryNew_bytes id id.size

theorem text_pos (id : Sid) : ∀ b ∈ id.text, 0 < b := by
  intro b hb
  have hne : b ≠ 0 := by simpa using mem_takeWhile_imp hb
  exact Fin.pos_iff_ne_zero.mpr hne

theorem length_text (id : Sid) : id.text.length ≤ 48 := id.size ▸ (takeWhile_sublist _).length_le

theorem bytes_eq_pad (id : Sid) : id.bytes = pad 0 48 id.text := by
  have hs : id.text ++ id.bytes.dropWhile (· ≠ 0) = id.bytes := takeWhile_append_dropWhile
  have hz := eq_replicate_of_mem id.trailing
  have hlen : id.text.length + (id.bytes.dropWhile (· ≠ 0)).length = 48 := by
    rw [← length_append, hs, id.size]
  have hc : (id.bytes.dropWhile (· ≠ 0)).length = 48 - id.text.length := by omega
  rw [pad, ← hc, ← hz, hs]

theorem exists_lt_full (id : Sid) : ∃ b ∈ id.bytes, b < 255 := by
  have hne : id.bytes ≠ [] := ne_nil_of_length_pos (by rw [id.size]; norm_num)
  obtain ⟨b, hb⟩ := exists_mem_of_ne_nil _ hne
  refine ⟨b, hb, ?_⟩
  rw [← takeWhile_append_dropWhile (p := (· ≠ 0)) (l := id.bytes), mem_append] at hb
  rcases hb with hb | hb
  · have hv := id.valid b hb
    simp only [isValidByte, Bool.or_eq_true, Bool.and_eq_true, decide_eq_true_eq] at hv
    change b.val < 255
    omega
  · rw [id.trailing b hb]
    decide

theorem toNat_charOfByte (b : Fin 256) : (Char.ofNat b.val).toNat = b := by
  have hvalid : b.val.isValidChar := Or.inl (by omega)
  rw [Char.ofNat, dif_pos hvalid]
  rfl

theorem strictMono_charOfByte : StrictMono fun b : Fin 256 => Char.ofNat b.val := by
  intro a b hab
  rw [Char.lt_def, UInt32.lt_iff_toNat_lt]
  change (Char.ofNat a.val).toNat < (Char.ofNat b.val).toNat
  rw [toNat_charOfByte, toNat_charOfByte]
  exact hab

/-- Zero padding makes the byte order of two ids the order of their texts. -/
theorem bytes_lt_iff (a b : Sid) : a.bytes < b.bytes ↔ a.asStr < b.asStr := by
  rw [a.bytes_eq_pad, b.bytes_eq_pad,
    pad_lt_pad_iff a.text_pos b.text_pos a.length_text b.length_text, asStr, asStr,
    String.lt_iff_toList_lt, String.toList_ofList, String.toList_ofList,
    map_lt_map_iff strictMono_charOfByte]

theorem asStr_inj {a b : Sid} : a.asStr = b.asStr ↔ a = b := by
  refine ⟨fun h => ext ?_, fun h => h ▸ rfl⟩
  have hab : ¬ a.bytes < b.bytes := by rw [bytes_lt_iff, h]; exact lt_irrefl _
  have hba : ¬ b.bytes < a.bytes := by rw [bytes_lt_iff, h]; exact lt_irrefl _
  exact le_antisymm (not_lt.mp hba) (not_lt.mp hab)

theorem bytes_inj {a b : Sid} : a.bytes = b.bytes ↔ a = b := ⟨ext, fun h => h ▸ rfl⟩

theorem take_bytes_append (id : Sid) (rest : Key) : (id.bytes ++ rest).take 48 = id.bytes :=
  take_left' id.size

/-- An id is read off the front of any key that starts with it. -/
theorem bytes_prefix_append_iff {a b : Sid} {rest : Key} : a.bytes <+: b.bytes ++ rest ↔ a = b := by
  constructor
  · intro h
    have ha : a.bytes = (b.bytes ++ rest).take 48 := by
      rw [← a.size]
      exact prefix_iff_eq_take.mp h
    exact ext (ha.trans (b.take_bytes_append rest))
  · rintro rfl
    exact prefix_append _ _

end Sid

/-- `ChunkId::new`. -/
def chunkId (dataset : Sid) (lastBlock : Nat) : Key := dataset.bytes ++ bigEndian 8 lastBlock

namespace ChunkId

/-- `borsh::from_slice` of a chunk id. -/
def fromSlice (key : Key) : Except Error Key :=
  if key.length < 56 then .error (.text "Unexpected length of input")
  else if 56 < key.length then .error (.text "Not all bytes read")
  else .ok key

def datasetId (key : Key) : Except Error Sid := (Sid.tryFrom (key.take 48)).mapError .text

def lastBlock (key : Key) : Nat := ofBigEndian (key.drop 48)

end ChunkId

section ChunkId

variable {a b dataset : Sid} {m n : Nat}

theorem length_chunkId : (chunkId dataset n).length = 56 := by
  simp [chunkId, dataset.size, length_bigEndian]

theorem fromSlice_chunkId : ChunkId.fromSlice (chunkId dataset n) = .ok (chunkId dataset n) := by
  simp [ChunkId.fromSlice, length_chunkId]

theorem datasetId_chunkId : ChunkId.datasetId (chunkId dataset n) = .ok dataset := by
  rw [ChunkId.datasetId, chunkId, Sid.take_bytes_append, Sid.tryFrom_bytes]
  rfl

theorem lastBlock_chunkId (h : n ≤ maxBlockNumber) : ChunkId.lastBlock (chunkId dataset n) = n := by
  have hn : n < 256 ^ 8 := by
    unfold maxBlockNumber at h
    omega
  rw [ChunkId.lastBlock, chunkId, drop_left' dataset.size, ofBigEndian_bigEndian hn]

/-- Chunk ids are ordered by dataset, then by last block. -/
theorem chunkId_lt_iff (hm : m ≤ maxBlockNumber) (hn : n ≤ maxBlockNumber) :
    chunkId a m < chunkId b n ↔ toLex (a.asStr, m) < toLex (b.asStr, n) := by
  unfold maxBlockNumber at hm hn
  rw [chunkId, chunkId, append_lt_append_iff (a.size.trans b.size.symm), Prod.Lex.toLex_lt_toLex,
    Sid.bytes_lt_iff, Sid.bytes_inj, Sid.asStr_inj, bigEndian_lt_iff (by omega) (by omega)]

theorem eq_of_chunkId_eq (h : chunkId a m = chunkId b n) : a = b := by
  have ha := prefix_append a.bytes (bigEndian 8 m)
  rw [← chunkId, h] at ha
  exact Sid.bytes_prefix_append_iff.mp ha

theorem chunkId_le_iff (hm : m ≤ maxBlockNumber) (hn : n ≤ maxBlockNumber) :
    chunkId a m ≤ chunkId b n ↔ toLex (a.asStr, m) ≤ toLex (b.asStr, n) := by
  rw [← not_lt, chunkId_lt_iff hn hm, not_lt]

end ChunkId

def idBytes (dataset : DatasetId) : Key :=
  pad 0 48 (dataset.toList.map fun c => Fin.ofNat 256 c.toNat)

theorem idBytes_asStr (id : Sid) : idBytes id.asStr = id.bytes := by
  have hr : id.text.map ((fun c : Char => Fin.ofNat 256 c.toNat) ∘ fun b => Char.ofNat b.val) =
      id.text := by
    refine map_id'' (fun b => ?_) _
    rw [Function.comp_apply, Sid.toNat_charOfByte]
    exact Fin.ofNat_val_eq_self b
  rw [id.bytes_eq_pad, idBytes, Sid.asStr, String.toList_ofList, map_map, hr]

/-- A family of `Db` whose owners are ids of datasets. -/
def Named {β κ : Type} [LinearOrder κ] {pos : β → κ} (family : Shelved DatasetId pos) : Prop :=
  ∀ e ∈ family, ∃ id : Sid, id.asStr = e.1

/-! ### Chunk listings -/

/-- `validate_chunk`. The second message names the two blocks the wrong way round. -/
def validateChunk (dataset : Sid) (key : Key) (chunk : Chunk) : Except Error Unit := do
  let chunkId := s!"{dataset.asStr}/{ChunkId.lastBlock key}"
  ensure (ChunkId.lastBlock key = chunk.lastBlock)
    (.text s!"chunk {chunkId} has unexpected last block - {chunk.lastBlock}")
  ensure (chunk.firstBlock ≤ chunk.lastBlock)
    (.text (s!"chunk {chunkId} is invalid: last_block = {chunk.firstBlock} is less than " ++
      s!"first_block = {chunk.lastBlock}"))

/-- `ChunkIterator::next_chunk` at a valid cursor position. -/
def ChunkIterator.nextChunk (dataset : Sid) (fromBlock : Nat) (toBlock : Option Nat) (key : Key)
    (chunk : Chunk) : Except Error (Option Chunk) := do
  let currentId ← ChunkId.fromSlice key
  let current ← ChunkId.datasetId currentId
  if current ≠ dataset then return none
  validateChunk current currentId chunk
  return if inRange fromBlock toBlock chunk then some chunk else none

/-- The chunks that `ChunkIterator` yields, given the entries its cursor passes. -/
def ChunkIterator.chunks (dataset : Sid) (fromBlock : Nat) (toBlock : Option Nat) :
    List (Key × Chunk) → Except Error (List Chunk)
  | [] => .ok []
  | (key, chunk) :: entries =>
    match ChunkIterator.nextChunk dataset fromBlock toBlock key chunk with
    | .error e => .error e
    | .ok none => .ok []
    | .ok (some chunk) =>
      (ChunkIterator.chunks dataset fromBlock toBlock entries).map fun chunks => chunk :: chunks

/-- `CF_CHUNKS`. -/
abbrev ChunksFamily := Keyed.Map Key Chunk

namespace ChunksFamily

/-- `list_chunks`: `seek_first`, then `next`. -/
def listChunks (cf : ChunksFamily) (dataset : Sid) (fromBlock : Nat) (toBlock : Option Nat) :
    Except Error (List Chunk) :=
  ChunkIterator.chunks dataset fromBlock toBlock (cf.seek (chunkId dataset fromBlock))

/-- `list_chunks` into reversed: `seek_last`, then `prev`. -/
def listChunksReversed (cf : ChunksFamily) (dataset : Sid) (fromBlock : Nat)
    (toBlock : Option Nat) : Except Error (List Chunk) :=
  ChunkIterator.chunks dataset fromBlock toBlock
    (cf.seekPrev (chunkId dataset (toBlock.getD maxBlockNumber)))

def getFirstChunk (cf : ChunksFamily) (dataset : Sid) : Except Error (Option Chunk) :=
  (cf.listChunks dataset 0 none).map List.head?

def getLastChunk (cf : ChunksFamily) (dataset : Sid) : Except Error (Option Chunk) :=
  (cf.listChunksReversed dataset 0 none).map List.head?

end ChunksFamily

/-- An entry of the chunks family under its byte key. -/
def encodeChunk (e : DatasetId × Chunk) : Key × Chunk :=
  (idBytes e.1 ++ bigEndian 8 e.2.lastBlock, e.2)

theorem encodeChunk_asStr (id : Sid) (chunk : Chunk) :
    encodeChunk (id.asStr, chunk) = (chunkId id chunk.lastBlock, chunk) := by
  rw [encodeChunk, idBytes_asStr]
  rfl

/-- `cf` is the chunks family of `db` under byte keys. -/
structure Db.HasChunks (db : Db) (cf : ChunksFamily) : Prop where
  named : Named db.chunks
  image : Keyed.Image encodeChunk db.chunks cf

theorem validateChunk_chunkId (dataset : Sid) (chunk : Chunk) :
    validateChunk dataset (chunkId dataset chunk.lastBlock) chunk = .ok () := by
  simp only [validateChunk, lastBlock_chunkId chunk.last_le_max, decide_true]
  simp [ensure, chunk.first_le_last, bind, Except.bind]

theorem ChunkIterator.nextChunk_chunkId (dataset id : Sid) (fromBlock : Nat) (toBlock : Option Nat)
    (chunk : Chunk) :
    ChunkIterator.nextChunk dataset fromBlock toBlock (chunkId id chunk.lastBlock) chunk =
      .ok (if id = dataset ∧ inRange fromBlock toBlock chunk = true then some chunk else none) := by
  unfold nextChunk
  rw [fromSlice_chunkId]
  change (ChunkId.datasetId _ >>= _) = _
  rw [datasetId_chunkId]
  change ite _ _ _ = _
  by_cases hid : id = dataset
  · subst hid
    rw [if_neg (not_not.mpr rfl), validateChunk_chunkId]
    simp only [true_and]
    rfl
  · rw [if_pos hid, if_neg fun h => hid h.1]
    rfl

/-- Over entries of the family the iterator takes the chunks of its dataset while they are in
range. -/
theorem ChunkIterator.chunks_encoded (dataset : Sid) (fromBlock : Nat) (toBlock : Option Nat)
    {entries : List (DatasetId × Chunk)} (hn : ∀ e ∈ entries, ∃ id : Sid, id.asStr = e.1) :
    ChunkIterator.chunks dataset fromBlock toBlock (entries.map encodeChunk) =
      .ok (((entries.takeWhile fun e => e.1 = dataset.asStr).map Prod.snd).takeWhile
        (inRange fromBlock toBlock)) := by
  induction entries with
  | nil => rfl
  | cons e _ ih =>
    obtain ⟨name, chunk⟩ := e
    obtain ⟨id, rfl : id.asStr = name⟩ := hn _ mem_cons_self
    have ih := ih fun e he => hn e (mem_cons_of_mem _ he)
    rw [map_cons, encodeChunk_asStr, ChunkIterator.chunks, nextChunk_chunkId, ih]
    by_cases hid : id = dataset
    · by_cases hr : inRange fromBlock toBlock chunk = true
      · simp [hid, hr, Except.map]
      · simp [hid, hr]
    · have hne : id.asStr ≠ dataset.asStr := fun h => hid (Sid.asStr_inj.mp h)
      simp [hid, hne]

namespace Db.HasChunks

variable {db : Db} {cf : ChunksFamily} {fromBlock : Nat} {toBlock : Option Nat}

theorem strictMono (h : db.HasChunks cf) {e f : DatasetId × Chunk} (he : e ∈ db.chunks)
    (hf : f ∈ db.chunks) (hlt : shelfKey Chunk.lastBlock e < shelfKey Chunk.lastBlock f) :
    (encodeChunk e).1 < (encodeChunk f).1 := by
  obtain ⟨name, chunk⟩ := e
  obtain ⟨name', chunk'⟩ := f
  obtain ⟨id, rfl : id.asStr = name⟩ := h.named _ he
  obtain ⟨id', rfl : id'.asStr = name'⟩ := h.named _ hf
  rw [encodeChunk_asStr, encodeChunk_asStr]
  exact (chunkId_lt_iff chunk.last_le_max chunk'.last_le_max).mpr hlt

/-- The listing over byte keys is the listing of the dataset. -/
theorem listChunks_eq (h : db.HasChunks cf) (dataset : Sid) (hf : fromBlock ≤ maxBlockNumber) :
    cf.listChunks dataset fromBlock toBlock =
      .ok (db.listChunks dataset.asStr fromBlock toBlock) := by
  have hbound : ∀ e ∈ db.chunks, chunkId dataset fromBlock ≤ (encodeChunk e).1 ↔
      toLex (dataset.asStr, fromBlock) ≤ shelfKey Chunk.lastBlock e := by
    rintro ⟨name, chunk⟩ he
    obtain ⟨id, rfl : id.asStr = name⟩ := h.named _ he
    rw [encodeChunk_asStr]
    exact chunkId_le_iff hf chunk.last_le_max
  rw [ChunksFamily.listChunks, h.image.seek_eq (fun a ha b hb => h.strictMono ha hb) hbound,
    ChunkIterator.chunks_encoded]
  · rfl
  · intro e he
    exact h.named e (mem_filter.mp he).1

theorem listChunksReversed_eq (h : db.HasChunks cf) (dataset : Sid)
    (hto : ∀ stop ∈ toBlock, stop ≤ maxBlockNumber) :
    cf.listChunksReversed dataset fromBlock toBlock =
      .ok (db.listChunksReversed dataset.asStr fromBlock toBlock) := by
  have hs : toBlock.getD maxBlockNumber ≤ maxBlockNumber := by
    cases toBlock with
    | none => exact le_rfl
    | some stop => exact hto stop rfl
  have hbound : ∀ e ∈ db.chunks, (encodeChunk e).1 ≤ chunkId dataset (toBlock.getD maxBlockNumber) ↔
        shelfKey Chunk.lastBlock e ≤ toLex (dataset.asStr, toBlock.getD maxBlockNumber) := by
    rintro ⟨name, chunk⟩ he
    obtain ⟨id, rfl : id.asStr = name⟩ := h.named _ he
    rw [encodeChunk_asStr]
    exact chunkId_le_iff chunk.last_le_max hs
  rw [ChunksFamily.listChunksReversed,
    h.image.seekPrev_eq (fun a ha b hb => h.strictMono ha hb) hbound, ChunkIterator.chunks_encoded]
  · rfl
  · intro e he
    exact h.named e (mem_filter.mp (mem_reverse.mp he)).1

end Db.HasChunks

/-! ### Hash indexes -/

def hashBytes (hash : Hash) : Key := hash.toByteArray.data.toList.map UInt8.toFin

/-- `HashIndexKey::new`. -/
def hashIndexKey (dataset : Sid) (hash : Hash) : Key := dataset.bytes ++ hashBytes hash

def datasetRange (dataset : Sid) : Key × Key := (dataset.bytes, prefixUpperBound dataset.bytes)

section HashFamily

variable {ν : Type} {cf : Keyed.Map Key ν} {index : Shelved DatasetId (hashPos : Hash × ν → Hash)}
  {dataset other : Sid}

/-- The entries between the ends of `dataset_range`, as a cursor passes them. -/
def scanDataset (cf : Keyed.Map Key ν) (dataset : Sid) : List (Key × ν) :=
  cf.between (datasetRange dataset).1 (datasetRange dataset).2

/-- `purge_hash_index` after some number of its batches. -/
def purgeHashIndex (cf : Keyed.Map Key ν) (dataset : Sid) (batches : Nat) : Keyed.Map Key ν :=
  cf.eraseAll (((scanDataset cf dataset).take (10000 * batches)).map Prod.fst)

/-- The range of a dataset holds the keys that start with its id, and no others. -/
theorem mem_scanDataset {e : Key × ν} :
    e ∈ scanDataset cf dataset ↔ e ∈ cf ∧ dataset.bytes <+: e.1 := by
  have hbound := prefixUpperBound_ne_nil dataset.exists_lt_full
  have hs : e ∈ scanDataset cf dataset ↔
      e ∈ cf ∧ dataset.bytes ≤ e.1 ∧ e.1 < prefixUpperBound dataset.bytes :=
    Keyed.mem_between
  rw [hs, ← mem_prefix_range_iff]
  simp only [hbound, false_or]

/-- A batch of the purge names keys of its dataset only. -/
theorem prefix_of_mem_batch {batches : Nat} {key : Key}
    (h : key ∈ ((scanDataset cf dataset).take (10000 * batches)).map Prod.fst) :
    dataset.bytes <+: key := by
  obtain ⟨_, he, rfl⟩ := mem_map.mp h
  exact (mem_scanDataset.mp (mem_of_mem_take he)).2

/-- However many batches a purge got through, the entries of other datasets are as they were. -/
theorem mem_purgeHashIndex_of_ne (hne : other ≠ dataset) (batches : Nat) (hash : Hash) (value : ν) :
    (hashIndexKey other hash, value) ∈ purgeHashIndex cf dataset batches ↔
      (hashIndexKey other hash, value) ∈ cf := by
  unfold purgeHashIndex
  rw [Keyed.mem_eraseAll]
  refine and_iff_left ?_
  intro hm
  exact hne (Sid.bytes_prefix_append_iff.mp (prefix_of_mem_batch hm)).symm

/-- An entry of a hash index under its byte key. -/
def encodeHash (e : DatasetId × (Hash × ν)) : Key × ν := (idBytes e.1 ++ hashBytes e.2.1, e.2.2)

theorem encodeHash_asStr (id : Sid) (entry : Hash × ν) :
    encodeHash (id.asStr, entry) = (hashIndexKey id entry.1, entry.2) := by
  rw [encodeHash, idBytes_asStr]
  rfl

/-- A purge that ran to its end has removed the dataset from the index. -/
theorem purgeHashIndex_image_all (hn : Named index) (h : Keyed.Image encodeHash index cf)
    {batches : Nat} (ha : (scanDataset cf dataset).length ≤ 10000 * batches) :
    Keyed.Image encodeHash (index.filter fun e => e.1 ≠ dataset.asStr)
      (purgeHashIndex cf dataset batches) := by
  have hm : ∀ e, e ∈ purgeHashIndex cf dataset batches ↔ e ∈ cf ∧ ¬ dataset.bytes <+: e.1 := by
    intro e
    unfold purgeHashIndex
    rw [Keyed.mem_eraseAll, take_of_length_le ha]
    refine and_congr_right fun he => not_congr ⟨fun hk => ?_, fun hp => ?_⟩
    · obtain ⟨_, he', heq⟩ := mem_map.mp hk
      exact heq ▸ (mem_scanDataset.mp he').2
    · exact mem_map_of_mem (mem_scanDataset.mpr ⟨he, hp⟩)
  intro e
  rw [hm, h e]
  constructor
  · rintro ⟨⟨⟨name, entry⟩, he, rfl⟩, hp⟩
    obtain ⟨id, rfl : id.asStr = name⟩ := hn _ he
    refine ⟨_, Keyed.mem_filter.mpr ⟨he, ?_⟩, rfl⟩
    rw [encodeHash_asStr] at hp
    have hne : id.asStr ≠ dataset.asStr := by
      intro heq
      exact hp (Sid.bytes_prefix_append_iff.mpr (Sid.asStr_inj.mp heq).symm)
    simpa using hne
  · rintro ⟨⟨name, _⟩, he, rfl⟩
    obtain ⟨he, hne⟩ := Keyed.mem_filter.mp he
    obtain ⟨id, rfl : id.asStr = name⟩ := hn _ he
    refine ⟨⟨_, he, rfl⟩, ?_⟩
    rw [encodeHash_asStr]
    intro hp
    have heq := Sid.bytes_prefix_append_iff.mp hp
    simp [heq] at hne

/-- `Tx::has_hash_entries` probes the same range. -/
theorem scanDataset_ne_nil_iff (hn : Named index) (h : Keyed.Image encodeHash index cf) :
    scanDataset cf dataset ≠ [] ↔ hasHashEntries index dataset.asStr = true := by
  simp only [hasHashEntries, any_eq_true, decide_eq_true_eq]
  constructor
  · intro hne
    obtain ⟨e, he⟩ := exists_mem_of_ne_nil _ hne
    obtain ⟨hcf, hp⟩ := mem_scanDataset.mp he
    obtain ⟨⟨name, entry⟩, hen, rfl⟩ := (h e).mp hcf
    obtain ⟨id, rfl : id.asStr = name⟩ := hn _ hen
    rw [encodeHash_asStr] at hp
    exact ⟨_, hen, by rw [Sid.bytes_prefix_append_iff.mp hp]⟩
  · rintro ⟨⟨name, _⟩, hen, rfl : name = dataset.asStr⟩
    have hcf := (h _).mpr ⟨_, hen, rfl⟩
    rw [encodeHash_asStr] at hcf
    exact ne_nil_of_mem (mem_scanDataset.mpr ⟨hcf, prefix_append _ _⟩)

end HashFamily

end Storage
