import Routers.Codec.Blob
import Mathlib.Data.List.Pairwise

/-!
# The blocks of a file, one by one and all at once

The blobs of a file are read as blocks in two ways: a parallel reader goes over all blobs and
leaves out those that cannot be read, and an iterator reads one blob a call.  A blob that
cannot be read makes the call return nothing, which is also how the iterator says that it has
come to the end.

## Main definitions

* `BlockItem.fromBlobItem` — the block of a blob.
* `BlockIterator.next`, `BlockIterator.sequential` — one call, and all calls up to the first
  that returns nothing.
* `BlockIterator.parIter` — the parallel reader.

## Main results

* `BlockItem.isSome_fromBlobItem_iff` — which blobs can be read.
* `BlockIterator.sequential_eq_parIter_iff` — **the two agree exactly when no readable blob
  comes after an unreadable one.**

## References

`src/libs/routers_codec/src/osm/block/item.rs` and
`src/libs/routers_codec/src/osm/block/iterator.rs`.
-/

namespace Routers

/-! ### The block of a blob -/

namespace Osm

/-- What a blob holds: packed data, or data in a form that is not read. -/
inductive Data
  | raw (data : List UInt8)
  | obsoleteBzip2Data (data : List UInt8)
  | lzmaData (data : List UInt8)
  | lz4Data (data : List UInt8)
  | zstdData (data : List UInt8)
  | zlibData (data : List UInt8)
  deriving DecidableEq, Repr

/-- A blob: its data, and how many bytes they are once unpacked. -/
structure Blob where
  rawSize : Option Int32
  data : Option Data
  deriving DecidableEq, Repr

end Osm

/-- The decoders of messages, into header blocks `H` and primitive blocks `P`, and the
decompression of so many bytes. -/
structure Decoders (H P : Type) where
  blob : List UInt8 → Option Osm.Blob
  headerBlock : List UInt8 → Option H
  primitiveBlock : List UInt8 → Option P
  readExact : List UInt8 → UInt64 → Option (List UInt8)

/-- A block of either kind. -/
inductive BlockItem (H P : Type)
  | headerBlock (block : H)
  | primitiveBlock (block : P)
  deriving DecidableEq, Repr

variable {H P : Type}

namespace BlockItem

variable (decoders : Decoders H P)

/-- Unpack data into so many bytes.  The program asks for the bytes before it reads anything, and
panics where the size was negative, which is 2 ^ 63 and more here; that is left out, and such a size
is as any other that the data do not have. -/
def zlibDecode (data : List UInt8) (rawSize : UInt64) : Option (List UInt8) :=
  decoders.readExact data rawSize

/-- The data of a blob, of which only the packed ones are read. -/
def fromBlob (blob : Osm.Blob) : Option (List UInt8) :=
  match blob.data with
  | some (.zlibData data) => zlibDecode decoders data (asU64 (blob.rawSize.getD 0))
  | _ => none

/-- The block of the data, by the kind that the header gives. -/
def fromData (data : List UInt8) (blob : BlobItem) : Option (BlockItem H P) :=
  match blob.header.type with
  | "OSMData" => (decoders.primitiveBlock data).map .primitiveBlock
  | "OSMHeader" => (decoders.headerBlock data).map .headerBlock
  | _ => none

/-- The block of a blob in the file, none where any step of reading it fails. -/
def fromRaw (blobItem : BlobItem) (buf : Buffer) : Option (BlockItem H P) := do
  let data ← buf.slice blobItem.range.start blobItem.range.stop
  let blob ← decoders.blob data
  let data ← fromBlob decoders blob
  fromData decoders data blobItem

/-- The block of a blob in the file. -/
def fromBlobItem (blob : BlobItem) (buf : Buffer) : Option (BlockItem H P) :=
  fromRaw decoders blob buf

/-- A blob can be read: its range lies in the buffer, a blob is decoded there, its data are
packed and are unpacked, and its type is known and decodes. -/
def Readable (buf : Buffer) (item : BlobItem) : Prop :=
  ∃ bytes blob packed data,
    buf.slice item.range.start item.range.stop = some bytes ∧
    decoders.blob bytes = some blob ∧
    blob.data = some (.zlibData packed) ∧
    decoders.readExact packed (asU64 (blob.rawSize.getD 0)) = some data ∧
    ((item.header.type = "OSMData" ∧ (decoders.primitiveBlock data).isSome) ∨
      (item.header.type = "OSMHeader" ∧ (decoders.headerBlock data).isSome))

variable {decoders}

theorem fromBlob_eq_some_iff {blob : Osm.Blob} {data : List UInt8} :
    fromBlob decoders blob = some data ↔ ∃ packed, blob.data = some (.zlibData packed) ∧
      decoders.readExact packed (asU64 (blob.rawSize.getD 0)) = some data := by
  unfold fromBlob zlibDecode
  rcases blob with ⟨rawSize, _ | data⟩
  · simp
  · cases data <;> simp

theorem isSome_fromData_iff {data : List UInt8} {item : BlobItem} :
    (fromData decoders data item).isSome ↔
      (item.header.type = "OSMData" ∧ (decoders.primitiveBlock data).isSome) ∨
        (item.header.type = "OSMHeader" ∧ (decoders.headerBlock data).isSome) := by
  unfold fromData
  split
  · next h => simp [h]
  · next h => simp [h]
  · next hdata hheader =>
    refine iff_of_false (by simp) ?_
    rintro (⟨h, -⟩ | ⟨h, -⟩)
    · exact hdata h
    · exact hheader h

theorem isSome_fromBlobItem_iff {buf : Buffer} {item : BlobItem} :
    (fromBlobItem decoders item buf).isSome ↔ Readable decoders buf item := by
  constructor
  · intro h
    obtain ⟨block, hblock⟩ := Option.isSome_iff_exists.mp h
    simp only [fromBlobItem, fromRaw, Option.bind_eq_bind, Option.bind_eq_some_iff] at hblock
    obtain ⟨bytes, hbytes, blob, hblob, data, hdata, hblock⟩ := hblock
    obtain ⟨packed, hpacked, hdata⟩ := fromBlob_eq_some_iff.mp hdata
    exact ⟨bytes, blob, packed, data, hbytes, hblob, hpacked, hdata,
      isSome_fromData_iff.mp (Option.isSome_of_mem hblock)⟩
  · rintro ⟨bytes, blob, packed, data, hbytes, hblob, hpacked, hdata, htype⟩
    have hfrom := fromBlob_eq_some_iff.mpr ⟨packed, hpacked, hdata⟩
    simp only [fromBlobItem, fromRaw, hbytes, hblob, hfrom, Option.bind_eq_bind,
      Option.bind_some]
    exact isSome_fromData_iff.mpr htype

end BlockItem

/-! ### The two readers -/

/-- The blobs of a file, and which of them is read next. -/
structure BlockIterator where
  blobs : List BlobItem
  buf : Buffer
  index : ℕ

namespace BlockIterator

/-- The blobs that a scan of the buffer collects. -/
def new (decode : List UInt8 → Option Osm.BlobHeader) (calls : ℕ) (buf : Buffer) :
    Option BlockIterator :=
  (BlobIterator.collect decode calls (BlobIterator.withExisting buf)).map fun blobs =>
    ⟨blobs, buf, 0⟩

variable (decoders : Decoders H P)

/-- The blocks of all blobs, those that cannot be read left out. -/
def parIter (it : BlockIterator) : List (BlockItem H P) :=
  it.blobs.filterMap fun blob => BlockItem.fromBlobItem decoders blob it.buf

/-- One call of the iterator: the next blob is gone, whether it could be read or not. -/
def next (it : BlockIterator) : BlockIterator × Option (BlockItem H P) :=
  match it.blobs[it.index]? with
  | none => (it, none)
  | some blob => ({ it with index := it.index + 1 }, BlockItem.fromBlobItem decoders blob it.buf)

variable {decoders}

/-- A call that returns a block has a blob to read, and moves on. -/
theorem index_lt_of_next {it it' : BlockIterator} {block : BlockItem H P}
    (h : next decoders it = (it', some block)) :
    it.index < it.blobs.length ∧ it' = { it with index := it.index + 1 } := by
  unfold next at h
  split at h
  · cases h
  · next blob hblob =>
    obtain ⟨hlt, -⟩ := List.getElem?_eq_some_iff.mp hblob
    exact ⟨hlt, (congrArg Prod.fst h).symm⟩

variable (decoders)

/-- The blocks of the calls up to the first that returns nothing. -/
def sequential (it : BlockIterator) : List (BlockItem H P) :=
  match _h : next decoders it with
  | (_, none) => []
  | (it', some block) => block :: sequential it'
termination_by it.blobs.length - it.index
decreasing_by
  obtain ⟨hlt, rfl⟩ := index_lt_of_next _h
  simp only
  omega

variable {decoders}

theorem sequential_of_drop_eq_nil {it : BlockIterator} (h : it.blobs.drop it.index = []) :
    sequential decoders it = [] := by
  have hnone : it.blobs[it.index]? = none :=
    List.getElem?_eq_none (List.drop_eq_nil_iff.mp h)
  have hnext : next decoders it = (it, none) := by
    rw [next, hnone]
  rw [sequential]
  split
  · rfl
  · next heq =>
    rw [hnext] at heq
    cases heq

theorem sequential_of_drop_eq_cons {it : BlockIterator} {blob : BlobItem} {blobs : List BlobItem}
    (h : it.blobs.drop it.index = blob :: blobs) :
    sequential decoders it = match BlockItem.fromBlobItem decoders blob it.buf with
      | none => []
      | some block => block :: sequential decoders { it with index := it.index + 1 } := by
  have hsome : it.blobs[it.index]? = some blob := by
    rw [← List.head?_drop, h, List.head?_cons]
  have hnext : next decoders it
      = ({ it with index := it.index + 1 }, BlockItem.fromBlobItem decoders blob it.buf) := by
    rw [next, hsome]
  rw [sequential]
  split
  · next heq =>
    rw [hnext] at heq
    rw [(Prod.mk.inj heq).2]
  · next heq =>
    rw [hnext] at heq
    obtain ⟨rfl, hblock⟩ := Prod.mk.inj heq
    rw [hblock]

/-- From any position on, the two agree when no readable blob comes after an unreadable one. -/
theorem sequential_eq_filterMap_iff {it : BlockIterator} {blobs : List BlobItem}
    (h : it.blobs.drop it.index = blobs) :
    sequential decoders it
        = blobs.filterMap (fun blob => BlockItem.fromBlobItem decoders blob it.buf) ↔
      blobs.Pairwise fun a b =>
        BlockItem.Readable decoders it.buf b → BlockItem.Readable decoders it.buf a := by
  induction blobs generalizing it with
  | nil => simp [sequential_of_drop_eq_nil h]
  | cons blob blobs ih =>
    have hdrop : it.blobs.drop (it.index + 1) = blobs := by
      rw [← List.tail_drop, h, List.tail_cons]
    rw [sequential_of_drop_eq_cons h, List.filterMap_cons, List.pairwise_cons]
    simp only [← BlockItem.isSome_fromBlobItem_iff] at ih ⊢
    cases hblock : BlockItem.fromBlobItem decoders blob it.buf with
    | none =>
      -- the iterator has come to its end: nothing may be left to read
      simp only [Option.isSome_none, Bool.false_eq_true, imp_false, Bool.not_eq_true,
        Option.isSome_eq_false_iff, Option.isNone_iff_eq_none]
      rw [eq_comm, List.filterMap_eq_nil_iff]
      refine ⟨fun hnone => ⟨hnone, ?_⟩, fun hpair => hpair.1⟩
      refine List.pairwise_of_forall_mem_list fun a _ b hb hread => ?_
      rw [hnone b hb] at hread
      cases hread
    | some block =>
      simp only [Option.isSome_some, implies_true, true_and, List.cons.injEq]
      exact ih hdrop

/-- **The iterator and the parallel reader see the same blocks**, exactly when no readable blob
comes after an unreadable one. -/
theorem sequential_eq_parIter_iff (decoders : Decoders H P) (blobs : List BlobItem)
    (buf : Buffer) :
    sequential decoders ⟨blobs, buf, 0⟩ = parIter decoders ⟨blobs, buf, 0⟩ ↔
      blobs.Pairwise fun a b =>
        BlockItem.Readable decoders buf b → BlockItem.Readable decoders buf a :=
  sequential_eq_filterMap_iff rfl

/-- A file whose first blob is not packed, and what its messages decode to. -/
def rawFile : Buffer where
  bytes := [0x0A, 0x00, 0x1A, 0x00]
  length_lt := by decide

/-- Decoders that know two texts: a blob whose data are not packed, and one whose packed data are
empty. -/
def rawFileDecoders : Decoders Unit Unit where
  blob bytes :=
    match bytes with
    | [0x0A, 0x00] => some ⟨none, some (.raw [])⟩
    | [0x1A, 0x00] => some ⟨none, some (.zlibData [])⟩
    | _ => none
  headerBlock bytes := if bytes = [] then some () else none
  primitiveBlock _ := none
  readExact _ rawSize := if rawSize = 0 then some [] else none

/-- The iterator stops at the first blob; the parallel reader goes on to the second. -/
theorem rawFile_sequential_ne_parIter :
    sequential rawFileDecoders ⟨[⟨⟨0, 2⟩, "OSMHeader", 2⟩, ⟨⟨2, 4⟩, "OSMHeader", 2⟩], rawFile, 0⟩ ≠
      parIter rawFileDecoders
        ⟨[⟨⟨0, 2⟩, "OSMHeader", 2⟩, ⟨⟨2, 4⟩, "OSMHeader", 2⟩], rawFile, 0⟩ := by
  rw [sequential_of_drop_eq_cons rfl]
  decide

end BlockIterator

end Routers
