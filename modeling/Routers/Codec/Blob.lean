import Mathlib.Data.List.Basic
import Mathlib.Order.Basic
import Mathlib.Tactic.Ring

/-!
# Scanning a file for its blobs

A map file is a row of blobs.  Each is led by the length of its header, in four bytes, and the
header; the header says how long the data behind it are, in a signed number.  The scan keeps an
offset of 64 bits into the file, reads the length at the offset through a bare pointer, and
moves the offset past the header and the data in wrapping arithmetic.

## Main definitions

* `Buffer` — the bytes of a file; `Buffer.readHeaderLen` reads at an address.
* `BlobIterator.takeNext` — one call of the iterator, and what can become of it.
* `BlobIterator.collect` — the blobs of a file.
* `BlobIterator.headerAt` — the header at an offset, in plain arithmetic.

## Main results

* `BlobIterator.takeNext_eq` — a call away from the upper end of the addresses, as `headerAt`
  has it.
* `BlobIterator.scans_iff` — **the scan ends and stays inside the buffer exactly when no header
  on its way takes the offset back.**

## References

`src/libs/routers_codec/src/osm/blob/iterator.rs` and `src/libs/routers_codec/src/osm/blob/item.rs`.
-/

namespace Routers

/-! ### Buffers -/

/-- The bytes of a file.  No vector is longer than the largest signed address. -/
structure Buffer where
  bytes : List UInt8
  length_lt : bytes.length < 2 ^ 63

namespace Buffer

/-- The number of bytes, as an address. -/
def len (buf : Buffer) : UInt64 := UInt64.ofNat buf.bytes.length

@[simp] theorem toNat_len (buf : Buffer) : buf.len.toNat = buf.bytes.length := by
  have := buf.length_lt
  unfold len
  rw [UInt64.toNat_ofNat']
  omega

/-- Four bytes as a number, the first the highest. -/
def fromBeBytes (a b c d : UInt8) : UInt32 :=
  UInt32.ofNat (((a.toNat * 256 + b.toNat) * 256 + c.toNat) * 256 + d.toNat)

/-- The number at an address, `none` where its four bytes are not all in the buffer.  Nothing
checks this when the program runs. -/
def readHeaderLen (buf : Buffer) (offset : UInt64) : Option UInt32 :=
  match buf.bytes.drop offset.toNat with
  | a :: b :: c :: d :: _ => some (fromBeBytes a b c d)
  | _ => none

/-- The bytes of a range, `none` where the range is inverted or leaves the buffer. -/
def slice (buf : Buffer) (start stop : UInt64) : Option (List UInt8) :=
  if start ≤ stop ∧ stop ≤ buf.len then
    some ((buf.bytes.take stop.toNat).drop start.toNat)
  else none

/-- A range inside the buffer can be sliced. -/
theorem slice_eq (buf : Buffer) {start stop : UInt64} {n : ℕ} (hn : start.toNat + n = stop.toNat)
    (hstop : stop.toNat ≤ buf.bytes.length) :
    buf.slice start stop = some ((buf.bytes.drop start.toNat).take n) := by
  have hle : start ≤ stop := by
    rw [UInt64.le_iff_toNat_le]
    omega
  have hlen : stop ≤ buf.len := by
    rwa [UInt64.le_iff_toNat_le, toNat_len]
  unfold slice
  rw [if_pos ⟨hle, hlen⟩, ← hn, List.drop_take, Nat.add_sub_cancel_left]

end Buffer

/-! ### Blobs -/

namespace Osm

/-- The header of a blob: its kind, and how many bytes of data follow. -/
structure BlobHeader where
  type : String
  datasize : Int32
  deriving DecidableEq, Repr

end Osm

/-- A range of addresses. -/
structure AddressRange where
  start : UInt64
  stop : UInt64
  deriving DecidableEq, Repr

/-- A blob in the file: its header, and where its data are. -/
structure BlobItem where
  range : AddressRange
  header : Osm.BlobHeader
  deriving DecidableEq, Repr

/-- A signed size as an unsigned address: the sign is extended. -/
def asU64 (datasize : Int32) : UInt64 := datasize.toInt64.toUInt64

/-- The blob whose data begin at an address. -/
def BlobItem.new (start : UInt64) (header : Osm.BlobHeader) : BlobItem where
  range := ⟨start, start + asU64 header.datasize⟩
  header := header

/-- The scan of a file: its bytes, how many blobs have been found, and how far it has come. -/
structure BlobIterator where
  buf : Buffer
  index : UInt64
  offset : UInt64

namespace BlobIterator

/-- The bytes that the length of a header takes. -/
def headerLenSize : UInt64 := 4

/-- The scan of a file from its beginning. -/
def withExisting (buf : Buffer) : BlobIterator := ⟨buf, 0, 0⟩

/-- What becomes of a call of the iterator. -/
inductive Taken
  /-- It returns nothing. -/
  | nothing (it : BlobIterator)
  /-- It returns a blob. -/
  | blob (it : BlobIterator) (item : BlobItem)
  /-- It reads four bytes that are not in the buffer. -/
  | outOfBounds
  /-- It panics on a range that is not in the buffer. -/
  | panicked

variable (decode : List UInt8 → Option Osm.BlobHeader)

/-- One call of the iterator, in the wrapping arithmetic of addresses. -/
def takeNext (it : BlobIterator) : Taken :=
  if it.buf.len < it.offset + headerLenSize then .nothing it
  else
    match it.buf.readHeaderLen it.offset with
    | none => .outOfBounds
    | some headerLen =>
      let offset := it.offset + headerLenSize
      let blobHeaderLength := headerLen.toUInt64
      if it.buf.len < offset + blobHeaderLength then .nothing { it with offset := offset }
      else
        match it.buf.slice offset (offset + blobHeaderLength) with
        | none => .panicked
        | some blobHeaderBuffer =>
          let start := offset + blobHeaderLength
          match decode blobHeaderBuffer with
          | none => .nothing { it with offset := start }
          | some header =>
            .blob { it with offset := start + asU64 header.datasize, index := it.index + 1 }
              (BlobItem.new start header)

/-- The blobs up to the first call that returns nothing, in so many calls; `none` if there is
no such call or a call fails before. -/
def collect : ℕ → BlobIterator → Option (List BlobItem)
  | 0, _ => none
  | calls + 1, it =>
    match takeNext decode it with
    | .nothing _ => some []
    | .blob it' item => (collect calls it').map (item :: ·)
    | .outOfBounds | .panicked => none

/-- The iterators that calls which return a blob lead to. -/
inductive Reached (buf : Buffer) : BlobIterator → Prop
  | start : Reached buf (withExisting buf)
  | next {it it' : BlobIterator} {item : BlobItem} (h : Reached buf it)
      (hnext : takeNext decode it = .blob it' item) : Reached buf it'

/-- **The scan of a buffer ends**, moves on with each blob, reads inside the buffer only and
hands out no inverted range. -/
structure Scans (buf : Buffer) : Prop where
  ends : ∃ items, collect decode (buf.bytes.length / 4 + 1) (withExisting buf) = some items ∧
    items.length ≤ buf.bytes.length / 4
  increases : ∀ it it' item, Reached decode buf it → takeNext decode it = .blob it' item →
    it.offset < it'.offset
  inside : ∀ it, Reached decode buf it → takeNext decode it ≠ .outOfBounds
  ordered : ∀ it it' item, Reached decode buf it → takeNext decode it = .blob it' item →
    item.range.start ≤ item.range.stop

/-! ### The header at an offset -/

/-- The header at an offset and where its data start. -/
def headerAt (bytes : List UInt8) (offset : ℕ) : Option (ℕ × Osm.BlobHeader) :=
  match bytes.drop offset with
  | a :: b :: c :: d :: rest =>
    let n := (Buffer.fromBeBytes a b c d).toNat
    if n ≤ rest.length then (decode (rest.take n)).map fun header => (offset + 4 + n, header)
    else none
  | _ => none

/-- The header at the iterator's offset, if there is one, does not take the offset back: the
size of its data is not negative, or so far below zero that the offset wraps and stops short of
the last four addresses. -/
def KeepsOn (it : BlobIterator) : Prop :=
  ∀ start header, headerAt decode it.buf.bytes it.offset.toNat = some (start, header) →
    0 ≤ header.datasize.toInt ∨ header.datasize.toInt + start + 4 < 0

variable {decode} {it it' : BlobIterator} {buf : Buffer} {item : BlobItem}

/-- A header leaves room for its length, and lies in the buffer. -/
theorem bounds_of_headerAt {bytes : List UInt8} {offset start : ℕ} {header : Osm.BlobHeader}
    (h : headerAt decode bytes offset = some (start, header)) :
    offset + 4 ≤ start ∧ start ≤ bytes.length := by
  unfold headerAt at h
  split at h
  · next a b c d rest hdrop =>
    have hlen := congrArg List.length hdrop
    simp only [List.length_drop, List.length_cons] at hlen
    simp only at h
    split_ifs at h with hfits
    obtain ⟨_, -, heq⟩ := Option.map_eq_some_iff.mp h
    cases heq
    omega
  · cases h

/-- Away from the upper end of the addresses the length of a header is read in the buffer, or
not at all. -/
theorem len_lt_add_iff (hroom : it.offset.toNat + 4 < 2 ^ 64) :
    it.buf.len < it.offset + headerLenSize ↔ it.buf.bytes.length < it.offset.toNat + 4 := by
  rw [UInt64.lt_iff_toNat_lt, UInt64.toNat_add, Buffer.toNat_len,
    show headerLenSize.toNat = 4 from rfl, Nat.mod_eq_of_lt hroom]

theorem exists_drop_eq {bytes : List UInt8} {offset : ℕ} (h : offset + 4 ≤ bytes.length) :
    ∃ a b c d, bytes.drop offset = a :: b :: c :: d :: bytes.drop (offset + 4) := by
  have hlen : (bytes.drop offset).length = bytes.length - offset := List.length_drop
  match hdrop : bytes.drop offset with
  | a :: b :: c :: d :: rest =>
    refine ⟨a, b, c, d, ?_⟩
    rw [← List.drop_drop, hdrop]
    rfl
  | [] | [_] | [_, _] | [_, _, _] =>
    rw [hdrop] at hlen
    simp only [List.length_cons, List.length_nil] at hlen
    omega

/-- The length of a header, where there is room for it, and the header it frames. -/
theorem exists_headerLen (h : it.offset.toNat + 4 ≤ it.buf.bytes.length) :
    ∃ n, it.buf.readHeaderLen it.offset = some n ∧
      headerAt decode it.buf.bytes it.offset.toNat
        = if n.toNat ≤ it.buf.bytes.length - (it.offset.toNat + 4) then
            (decode ((it.buf.bytes.drop (it.offset.toNat + 4)).take n.toNat)).map
              fun header => (it.offset.toNat + 4 + n.toNat, header)
          else none := by
  obtain ⟨a, b, c, d, hdrop⟩ := exists_drop_eq h
  refine ⟨Buffer.fromBeBytes a b c d, ?_, ?_⟩
  · unfold Buffer.readHeaderLen
    rw [hdrop]
  · unfold headerAt
    rw [hdrop]
    simp only [List.length_drop]

/-- A call that frames a header, by what the header decodes to. -/
theorem takeNext_of_framed {n : UInt32} (hread : it.buf.readHeaderLen it.offset = some n)
    (hfits : it.offset.toNat + 4 + n.toNat ≤ it.buf.bytes.length) :
    takeNext decode it =
      match decode ((it.buf.bytes.drop (it.offset.toNat + 4)).take n.toNat) with
      | none => .nothing { it with offset := UInt64.ofNat (it.offset.toNat + 4 + n.toNat) }
      | some header =>
        .blob
          { it with
            offset := UInt64.ofNat (it.offset.toNat + 4 + n.toNat) + asU64 header.datasize
            index := it.index + 1 }
          (BlobItem.new (UInt64.ofNat (it.offset.toNat + 4 + n.toNat)) header) := by
  have hlen := it.buf.length_lt
  have hoffset : (it.offset + headerLenSize).toNat = it.offset.toNat + 4 := by
    rw [UInt64.toNat_add, show headerLenSize.toNat = 4 from rfl]
    omega
  have hstart : (it.offset + headerLenSize + n.toUInt64).toNat
      = it.offset.toNat + 4 + n.toNat := by
    rw [UInt64.toNat_add, hoffset, UInt32.toNat_toUInt64]
    omega
  have hroom : ¬ it.buf.len < it.offset + headerLenSize := by
    rw [UInt64.lt_iff_toNat_lt, Buffer.toNat_len, hoffset]
    omega
  have hinside : ¬ it.buf.len < it.offset + headerLenSize + n.toUInt64 := by
    rw [UInt64.lt_iff_toNat_lt, Buffer.toNat_len, hstart]
    omega
  have hslice := it.buf.slice_eq (hoffset ▸ hstart.symm) (hstart.trans_le hfits)
  unfold takeNext
  rw [if_neg hroom, hread]
  simp only
  rw [if_neg hinside, hslice, hoffset, ← hstart, UInt64.ofNat_toNat]

/-- The two ways of a call away from the upper end of the addresses: it returns nothing, or the
blob of the header at the offset. -/
theorem takeNext_eq (hroom : it.offset.toNat + 4 < 2 ^ 64) :
    (∃ it', takeNext decode it = .nothing it' ∧
      headerAt decode it.buf.bytes it.offset.toNat = none) ∨
    ∃ start header, headerAt decode it.buf.bytes it.offset.toNat = some (start, header) ∧
      takeNext decode it = .blob
        { it with offset := UInt64.ofNat start + asU64 header.datasize, index := it.index + 1 }
        (BlobItem.new (UInt64.ofNat start) header) := by
  by_cases hshort : it.buf.bytes.length < it.offset.toNat + 4
  · -- no room for the length of a header
    refine .inl ⟨it, if_pos ((len_lt_add_iff hroom).mpr hshort), ?_⟩
    cases hheader : headerAt decode it.buf.bytes it.offset.toNat with
    | none => rfl
    | some header =>
      have := bounds_of_headerAt hheader
      omega
  obtain ⟨n, hread, hheader⟩ : ∃ n, it.buf.readHeaderLen it.offset = some n ∧
      headerAt decode it.buf.bytes it.offset.toNat = _ := exists_headerLen (not_lt.mp hshort)
  have hn : n.toNat < 2 ^ 32 := n.toNat_lt
  have hlen := it.buf.length_lt
  by_cases hfits : it.offset.toNat + 4 + n.toNat ≤ it.buf.bytes.length
  · rw [if_pos (by omega)] at hheader
    rw [takeNext_of_framed hread hfits, hheader]
    cases decode ((it.buf.bytes.drop (it.offset.toNat + 4)).take n.toNat) with
    | none => exact .inl ⟨_, rfl, rfl⟩
    | some header => exact .inr ⟨_, header, rfl, rfl⟩
  · -- no room for the header
    rw [if_neg (by omega)] at hheader
    refine .inl ⟨{ it with offset := it.offset + headerLenSize }, ?_, hheader⟩
    unfold takeNext
    rw [if_neg (by rwa [len_lt_add_iff hroom]), hread]
    simp only
    rw [if_pos]
    rw [UInt64.lt_iff_toNat_lt, Buffer.toNat_len, UInt64.toNat_add, UInt64.toNat_add,
      UInt32.toNat_toUInt64, show headerLenSize.toNat = 4 from rfl]
    omega

/-- The blob of the header at the offset. -/
theorem takeNext_of_headerAt {start : ℕ} {header : Osm.BlobHeader}
    (h : headerAt decode it.buf.bytes it.offset.toNat = some (start, header)) :
    takeNext decode it = .blob
      { it with offset := UInt64.ofNat start + asU64 header.datasize, index := it.index + 1 }
      (BlobItem.new (UInt64.ofNat start) header) := by
  have hbounds := bounds_of_headerAt h
  have hlen := it.buf.length_lt
  have hroom : it.offset.toNat + 4 < 2 ^ 64 := by omega
  rcases takeNext_eq hroom with ⟨_, -, hnone⟩ | ⟨start', header', hheader, hblob⟩
  · rw [hnone] at h
    cases h
  · rw [hheader] at h
    cases h
    exact hblob

/-! ### Where the offset goes -/

/-- A sum of an address and a signed size, around the circle of addresses. -/
theorem toNat_add_asU64 (start : ℕ) (datasize : Int32) :
    ((UInt64.ofNat start + asU64 datasize).toNat : ℤ)
      = (start + datasize.toInt) % 2 ^ 64 := by
  have hsize : datasize.toInt = (datasize.toInt64.toBitVec).toInt :=
    (Int32.toInt_toInt64 datasize).symm
  rw [BitVec.toInt_eq_toNat_cond] at hsize
  have hcast : (asU64 datasize).toNat = datasize.toInt64.toBitVec.toNat := rfl
  rw [UInt64.toNat_add, UInt64.toNat_ofNat', hcast]
  split_ifs at hsize <;> omega

/-- What a blob that is returned does to the iterator, if its size is not such that the offset
goes back. -/
theorem advance (hroom : it.offset.toNat + 4 < 2 ^ 64) (hkeeps : KeepsOn decode it)
    (hnext : takeNext decode it = .blob it' item) :
    it'.buf = it.buf ∧ it.offset.toNat + 4 ≤ it'.offset.toNat ∧
      it'.offset.toNat + 4 < 2 ^ 64 ∧ item.range.start ≤ item.range.stop := by
  rcases takeNext_eq hroom with ⟨_, hnothing, -⟩ | ⟨start, header, hheader, hblob⟩
  · rw [hnothing] at hnext
    cases hnext
  rw [hblob] at hnext
  cases hnext
  obtain ⟨hstart, hlen⟩ := bounds_of_headerAt hheader
  have hsize := hkeeps start header hheader
  have hbuf := it.buf.length_lt
  have hsum := toNat_add_asU64 start header.datasize
  have hlt : header.datasize.toInt < 2 ^ 31 := header.datasize.toInt_lt
  have hge : -2 ^ 31 ≤ header.datasize.toInt := header.datasize.le_toInt
  refine ⟨rfl, ?_, ?_, ?_⟩
  · simp only
    omega
  · simp only
    omega
  · simp only [BlobItem.new, UInt64.le_iff_toNat_le, UInt64.toNat_ofNat']
    omega

/-! ### The whole scan -/

/-- Where all headers keep the scan going, its offset stays off the upper end of the
addresses. -/
theorem room_of_reached (hkeeps : ∀ it, Reached decode buf it → KeepsOn decode it)
    (h : Reached decode buf it) : it.buf = buf ∧ it.offset.toNat + 4 < 2 ^ 64 := by
  induction h with
  | start => exact ⟨rfl, show (0 : UInt64).toNat + 4 < 2 ^ 64 by decide⟩
  | next hprior hnext ih =>
    obtain ⟨hbuf, -, hroom, -⟩ := advance ih.2 (hkeeps _ hprior) hnext
    exact ⟨hbuf.trans ih.1, hroom⟩

/-- Each blob takes four bytes at least, so calls run out with the buffer. -/
theorem exists_collect (hkeeps : ∀ it, Reached decode buf it → KeepsOn decode it) (calls : ℕ)
    (h : Reached decode buf it) (hcalls : buf.bytes.length < it.offset.toNat + 4 * (calls + 1)) :
    ∃ items, collect decode (calls + 1) it = some items ∧ items.length ≤ calls := by
  induction calls generalizing it with
  | zero =>
    obtain ⟨rfl, hroom⟩ := room_of_reached hkeeps h
    exact ⟨[], by rw [collect, takeNext, if_pos ((len_lt_add_iff hroom).mpr (by omega))],
      le_rfl⟩
  | succ calls ih =>
    obtain ⟨rfl, hroom⟩ := room_of_reached hkeeps h
    rcases takeNext_eq hroom with ⟨it', hnothing, -⟩ | ⟨start, header, -, hblob⟩
    · exact ⟨[], by rw [collect, hnothing], Nat.zero_le _⟩
    · obtain ⟨-, hmove, -⟩ := advance hroom (hkeeps it h) hblob
      obtain ⟨items, hitems, hlen⟩ := ih (h.next hblob) (by omega)
      refine ⟨BlobItem.new (UInt64.ofNat start) header :: items, ?_, Nat.succ_le_succ hlen⟩
      rw [collect, hblob]
      simp only [hitems, Option.map_some]

/-- A call at the upper end of the addresses reads outside the buffer. -/
theorem takeNext_eq_outOfBounds (hend : 2 ^ 64 ≤ it.offset.toNat + 4)
    (hlen : 4 ≤ it.buf.bytes.length) : takeNext decode it = .outOfBounds := by
  have hlt := it.offset.toNat_lt
  have hbuf := it.buf.length_lt
  have hcheck : ¬ it.buf.len < it.offset + headerLenSize := by
    rw [UInt64.lt_iff_toNat_lt, UInt64.toNat_add, Buffer.toNat_len,
      show headerLenSize.toNat = 4 from rfl]
    omega
  have hread : it.buf.readHeaderLen it.offset = none := by
    unfold Buffer.readHeaderLen
    rw [List.drop_of_length_le (by omega)]
  unfold takeNext
  rw [if_neg hcheck, hread]

/-- **A scan ends after a quarter as many blobs as there are bytes, moves on with each, reads
inside the buffer only and hands out no inverted range**, exactly when at every offset it
reaches the header, if there is one, keeps it going. -/
theorem scans_iff (decode : List UInt8 → Option Osm.BlobHeader) (buf : Buffer) :
    Scans decode buf ↔ ∀ it, Reached decode buf it → KeepsOn decode it := by
  constructor
  · intro h it hreached start header hheader
    obtain ⟨hstart, hlen⟩ := bounds_of_headerAt hheader
    have hbuf := it.buf.length_lt
    have hnext := takeNext_of_headerAt hheader
    have hsum := toNat_add_asU64 start header.datasize
    by_contra! hback
    by_cases hinverted : -header.datasize.toInt ≤ start
    · -- the range ends before it starts
      have hordered := h.ordered it _ _ hreached hnext
      simp only [BlobItem.new, UInt64.le_iff_toNat_le, UInt64.toNat_ofNat'] at hordered
      omega
    · -- the offset stops at the upper end of the addresses
      refine h.inside _ (hreached.next hnext) (takeNext_eq_outOfBounds ?_ ?_)
      · simp only
        omega
      · simp only
        omega
  · intro hkeeps
    refine ⟨exists_collect hkeeps _ .start ?_, fun it it' item h hnext => ?_,
      fun it h hout => ?_, fun it it' item h hnext => ?_⟩
    · have := Nat.div_add_mod buf.bytes.length 4
      have := Nat.mod_lt buf.bytes.length (show 4 > 0 by decide)
      simp only [withExisting, show (0 : UInt64).toNat = 0 from rfl]
      omega
    · obtain ⟨-, hmove, -⟩ := advance (room_of_reached hkeeps h).2 (hkeeps it h) hnext
      rw [UInt64.lt_iff_toNat_lt]
      omega
    · rcases takeNext_eq (room_of_reached hkeeps h).2
        with ⟨_, hnothing, -⟩ | ⟨_, _, -, hblob⟩
      · rw [hnothing] at hout
        cases hout
      · rw [hblob] at hout
        cases hout
    · exact (advance (room_of_reached hkeeps h).2 (hkeeps it h) hnext).2.2.2

/-- A first header that takes the offset back to the start of the file: the scan never ends. -/
theorem collect_of_back {start : ℕ} {header : Osm.BlobHeader}
    (hheader : headerAt decode buf.bytes 0 = some (start, header))
    (hback : UInt64.ofNat start + asU64 header.datasize = 0) (calls : ℕ) (index : UInt64) :
    collect decode calls ⟨buf, index, 0⟩ = none := by
  induction calls generalizing index with
  | zero => rfl
  | succ calls ih =>
    have hnext : takeNext decode ⟨buf, index, 0⟩ = _ := takeNext_of_headerAt hheader
    rw [hback] at hnext
    rw [collect, hnext]
    simp only [ih, Option.map_none]

/-- The header of a blob of map data of a negative size, and a file of nothing else. -/
def loopHeader : List UInt8 :=
  [0x0A, 0x07, 0x4F, 0x53, 0x4D, 0x44, 0x61, 0x74, 0x61,
    0x18, 0xE8, 0xFF, 0xFF, 0xFF, 0xFF, 0xFF, 0xFF, 0xFF, 0xFF, 0x01]

/-- A file of one header, whose data end where the file begins. -/
def loopFile : Buffer where
  bytes := 0x00 :: 0x00 :: 0x00 :: 0x14 :: loopHeader
  length_lt := by decide

/-- What this header decodes to. -/
def decodeLoopHeader (bytes : List UInt8) : Option Osm.BlobHeader :=
  if bytes = loopHeader then some ⟨"OSMData", -24⟩ else none

/-- The size takes the offset back to the start of the file: the scan never ends. -/
theorem loopFile_not_scans : ¬ Scans decodeLoopHeader loopFile ∧
    ∀ calls, collect decodeLoopHeader calls (withExisting loopFile) = none := by
  have hheader : headerAt decodeLoopHeader loopFile.bytes 0 = some (24, ⟨"OSMData", -24⟩) := by
    decide
  have hback : UInt64.ofNat 24 + asU64 (-24) = 0 := by decide
  have hnever (calls : ℕ) : collect decodeLoopHeader calls (withExisting loopFile) = none :=
    collect_of_back hheader hback calls 0
  refine ⟨fun h => ?_, hnever⟩
  obtain ⟨items, hitems, -⟩ := h.ends
  rw [hnever] at hitems
  cases hitems

end BlobIterator

end Routers
