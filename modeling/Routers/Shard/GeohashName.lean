import Routers.Shard.Geohash
import Routers.Library.Text
import Mathlib.Data.List.FinRange

/-!
# Names of geohashes

A geohash is printed as the base-32 characters of its indices, and read back character by
character.  The reader measures the text in bytes, goes over its characters, and looks up the
low byte of each.

## Main definitions

* `Geohash.display`, `Geohash.fromStr` — the printer and the reader.
* `Geohash.Name` — the texts that are names of geohashes.

## Main results

* `Geohash.isOk_fromStr_iff` — what the reader accepts.
* `GeohashStrategy.exists_name_locate` — a located geohash is read back from its name.
* `Geohash.reads_names_iff` — **of which texts the reader accepts the names and no others.**

## References

`src/libs/routers_shard/src/strategy/geohash.rs`.
-/

namespace Routers

open Text

namespace Geohash

/-- The characters of a geohash, in the order of their values. -/
def base32 : List Char := "0123456789bcdefghjkmnpqrstuvwxyz".toList

/-- The characters of a geohash; `none` where the printer panics on an index past the table. -/
def display (id : Geohash) : Option (List Char) :=
  if id.precision ≤ id.data.length then id.chars.mapM fun c => base32[c.toNat]? else none

/-- Why a text is no geohash. -/
inductive GeohashParseError
  | invalidLength (length : ℕ)
  | invalidChar (ch : Char)
  deriving DecidableEq, Repr

/-- The index of a character, by its low byte. -/
def position (ch : Char) : Option (BitVec 8) :=
  (base32.findIdx? fun b => b.toNat = ch.toNat % 256).map (BitVec.ofNat 8)

/-- The loop of the reader. -/
def fill : List Char → ℕ → List (BitVec 8) → Except GeohashParseError (List (BitVec 8))
  | [], _, data => .ok data
  | ch :: s, i, data =>
    match position ch with
    | none => .error (.invalidChar ch)
    | some idx => fill s (i + 1) (data.set i idx)

/-- The geohash of a text. -/
def fromStr (s : List Char) : Except GeohashParseError Geohash :=
  let precision := utf8Len s
  if precision = 0 ∨ precision > maxPrecision then .error (.invalidLength precision)
  else (fill s 0 (List.replicate maxPrecision 0)).map fun data => ⟨data, precision⟩

/-- One to twelve characters of the alphabet. -/
def Name (s : List Char) : Prop :=
  (1 ≤ s.length ∧ s.length ≤ maxPrecision) ∧ ∀ ch ∈ s, ch ∈ base32

/-! ### Characters -/

theorem position_base32 (i : Fin 32) :
    ∃ ch ∈ base32, base32[i.val]? = some ch ∧ position ch = some (BitVec.ofNat 8 i) := by
  revert i
  decide

theorem position_of_mem {ch : Char} (h : ch ∈ base32) :
    ∃ idx, position ch = some idx ∧ base32[idx.toNat]? = some ch ∧ ch.toNat < 128 := by
  have hall : ∀ ch ∈ base32,
      ((position ch).bind fun idx => base32[idx.toNat]?) = some ch ∧ ch.toNat < 128 := by
    decide
  obtain ⟨hfound, hascii⟩ := hall ch h
  obtain ⟨idx, hidx, hchar⟩ := Option.bind_eq_some_iff.mp hfound
  exact ⟨idx, hidx, hchar, hascii⟩

theorem isSome_position_iff {ch : Char} :
    (∃ idx, position ch = some idx) ↔ ∃ b ∈ base32, b.toNat = ch.toNat % 256 := by
  rw [← Option.isSome_iff_exists, position, Option.isSome_map, List.findIdx?_isSome,
    List.any_eq_true]
  simp only [decide_eq_true_eq]

/-- The character at the index found has the same low byte. -/
theorem exists_of_position {ch : Char} {idx : BitVec 8} (h : position ch = some idx) :
    ∃ c ∈ base32, base32[idx.toNat]? = some c ∧ c.toNat = ch.toNat % 256 := by
  obtain ⟨i, hi, rfl⟩ := Option.map_eq_some_iff.mp h
  obtain ⟨hlt, hchar, -⟩ := List.findIdx?_eq_some_iff_getElem.mp hi
  have hlen : base32.length = 32 := by decide
  have htoNat : (BitVec.ofNat 8 i).toNat = i := by
    rw [BitVec.toNat_ofNat]
    omega
  refine ⟨base32[i], List.getElem_mem hlt, ?_, by simpa using hchar⟩
  rw [htoNat, List.getElem?_eq_getElem hlt]

/-- An ASCII character is found as itself. -/
theorem getElem?_position {ch : Char} {idx : BitVec 8} (h : position ch = some idx)
    (hascii : ch.toNat < 128) : base32[idx.toNat]? = some ch := by
  obtain ⟨c, -, hc, hlow⟩ := exists_of_position h
  rw [hc, show c = ch from Char.toNat_inj.mp (by omega)]

/-! ### The loop of the reader -/

/-- The indices of characters. -/
abbrev Positions : List Char → List (BitVec 8) → Prop :=
  List.Forall₂ fun ch idx => position ch = some idx

theorem set_append_replicate (done : List (BitVec 8)) (k : ℕ) (idx : BitVec 8) :
    (done ++ List.replicate (k + 1) 0).set done.length idx
      = done ++ [idx] ++ List.replicate k 0 := by
  rw [List.set_append_right _ _ le_rfl, Nat.sub_self, List.replicate_succ, List.set_cons_zero,
    List.append_assoc, List.singleton_append]

/-- The loop writes the indices over the zeros. -/
theorem fill_positions {s : List Char} {idxs : List (BitVec 8)} (hs : Positions s idxs)
    (done : List (BitVec 8)) {k : ℕ} (hk : s.length ≤ k) :
    fill s done.length (done ++ List.replicate k 0)
      = .ok (done ++ idxs ++ List.replicate (k - s.length) 0) := by
  induction hs generalizing done k with
  | nil => simp [fill]
  | @cons ch idx s idxs hch hs ih =>
    obtain ⟨k, rfl⟩ := Nat.exists_eq_succ_of_ne_zero (Nat.ne_zero_of_lt hk)
    have hrest := ih (done ++ [idx]) (k := k) (by simpa using hk)
    rw [List.length_append, List.length_singleton] at hrest
    simp only [fill, hch]
    rw [set_append_replicate, hrest, List.append_assoc done, List.singleton_append, List.length_cons,
      Nat.succ_sub_succ]

/-- Where the loop ends, each character has an index. -/
theorem exists_positions {s : List Char} {i : ℕ} {data data' : List (BitVec 8)}
    (h : fill s i data = .ok data') : ∃ idxs, Positions s idxs := by
  induction s generalizing i data with
  | nil => exact ⟨[], .nil⟩
  | cons ch s ih =>
    cases hch : position ch with
    | none => simp [fill, hch] at h
    | some idx =>
      obtain ⟨idxs, hidxs⟩ := ih (by simpa only [fill, hch] using h)
      exact ⟨idx :: idxs, .cons hch hidxs⟩

/-- The loop over a whole text, which has room for it. -/
theorem fill_eq_ok_iff {s : List Char} {data : List (BitVec 8)} {k : ℕ} (hk : s.length ≤ k) :
    fill s 0 (List.replicate k 0) = .ok data ↔
      ∃ idxs, Positions s idxs ∧ data = idxs ++ List.replicate (k - s.length) 0 := by
  constructor
  · intro h
    obtain ⟨idxs, hidxs⟩ := exists_positions h
    have hfill := fill_positions hidxs [] hk
    rw [List.length_nil, List.nil_append, List.nil_append, h] at hfill
    exact ⟨idxs, hidxs, Except.ok.inj hfill⟩
  · rintro ⟨idxs, hidxs, rfl⟩
    exact fill_positions hidxs [] hk

/-- **The reader accepts one to twelve bytes whose characters all have an index.** -/
theorem fromStr_eq_ok_iff {s : List Char} {g : Geohash} :
    fromStr s = .ok g ↔ (1 ≤ utf8Len s ∧ utf8Len s ≤ maxPrecision) ∧ ∃ idxs, Positions s idxs ∧
      g = ⟨idxs ++ List.replicate (maxPrecision - s.length) 0, utf8Len s⟩ := by
  simp only [fromStr]
  split_ifs with hlen
  · constructor
    · intro h
      cases h
    · rintro ⟨⟨h1, h2⟩, -⟩
      omega
  · have hrange : 1 ≤ utf8Len s ∧ utf8Len s ≤ maxPrecision := by omega
    rw [and_iff_right hrange]
    have hfill := fun data => @fill_eq_ok_iff s data _ ((length_le_utf8Len s).trans hrange.2)
    constructor
    · intro h
      cases hdata : fill s 0 (List.replicate maxPrecision 0) with
      | error e =>
        rw [hdata] at h
        cases h
      | ok data =>
        obtain ⟨idxs, hidxs, rfl⟩ := (hfill data).mp hdata
        rw [hdata] at h
        exact ⟨idxs, hidxs, (Except.ok.inj h).symm⟩
    · rintro ⟨idxs, hidxs, rfl⟩
      rw [(hfill _).mpr ⟨idxs, hidxs, rfl⟩]
      rfl

/-! ### Names -/

theorem exists_positions_iff {s : List Char} :
    (∃ idxs, Positions s idxs) ↔ ∀ ch ∈ s, ∃ idx, position ch = some idx := by
  induction s with
  | nil => simp
  | cons ch s ih =>
    rw [List.forall_mem_cons, ← ih]
    constructor
    · rintro ⟨idxs, h⟩
      cases h with
      | cons hch hs => exact ⟨⟨_, hch⟩, _, hs⟩
    · rintro ⟨⟨idx, hch⟩, idxs, hs⟩
      exact ⟨idx :: idxs, .cons hch hs⟩

/-- The indices of ASCII characters are printed as those characters. -/
theorem Positions.mapM_eq {s : List Char} {idxs : List (BitVec 8)} (h : Positions s idxs)
    (hascii : ∀ ch ∈ s, ch.toNat < 128) : idxs.mapM (fun c => base32[c.toNat]?) = some s := by
  rw [mapM_eq_some_iff]
  induction h with
  | nil => exact .nil
  | cons hch _ ih =>
    obtain ⟨hc, hs⟩ := List.forall_mem_cons.mp hascii
    exact .cons (getElem?_position hch hc) (ih hs)

/-- A name is ASCII, each of its characters with an index. -/
theorem Name.ascii {s : List Char} (h : Name s) : ∀ ch ∈ s, ch.toNat < 128 := fun ch hch =>
  let ⟨_, _, _, hlt⟩ := position_of_mem (h.2 ch hch)
  hlt

theorem display_append (idxs zeros : List (BitVec 8)) :
    display ⟨idxs ++ zeros, idxs.length⟩ = idxs.mapM fun c => base32[c.toNat]? := by
  rw [display, if_pos (by simp), Geohash.chars, List.take_left]

/-- A text of ASCII characters is read as a name, and printed again. -/
theorem reads_name_of_ascii {s : List Char} (hascii : ∀ ch ∈ s, ch.toNat < 128) :
    ((∃ g, fromStr s = .ok g) ↔ Name s) ∧ ∀ g, fromStr s = .ok g → display g = some s := by
  have hlen := utf8Len_eq_length_iff.mpr hascii
  constructor
  · simp only [fromStr_eq_ok_iff, hlen, Name]
    constructor
    · rintro ⟨_, hrange, idxs, hidxs, -⟩
      refine ⟨hrange, fun ch hch => ?_⟩
      obtain ⟨idx, hidx⟩ := exists_positions_iff.mp ⟨idxs, hidxs⟩ ch hch
      exact List.mem_of_getElem? (getElem?_position hidx (hascii ch hch))
    · rintro ⟨hrange, hmem⟩
      obtain ⟨idxs, hidxs⟩ := exists_positions_iff.mpr fun ch hch =>
        let ⟨idx, hidx, _⟩ := position_of_mem (hmem ch hch)
        ⟨idx, hidx⟩
      exact ⟨_, hrange, idxs, hidxs, rfl⟩
  · intro g hg
    obtain ⟨⟨-, hmax⟩, idxs, hidxs, rfl⟩ := fromStr_eq_ok_iff.mp hg
    have hidxslen := hidxs.length_eq
    rw [hlen] at hmax ⊢
    rw [hidxslen, display_append]
    exact hidxs.mapM_eq hascii

/-- **What the reader accepts**: one to twelve bytes, each character of which has the low byte of
one of the alphabet. -/
theorem isOk_fromStr_iff {s : List Char} :
    (∃ g, fromStr s = .ok g) ↔ (1 ≤ utf8Len s ∧ utf8Len s ≤ maxPrecision) ∧
      ∀ ch ∈ s, ∃ b ∈ base32, b.toNat = ch.toNat % 256 := by
  simp only [fromStr_eq_ok_iff, ← isSome_position_iff, ← exists_positions_iff]
  constructor
  · rintro ⟨_, hrange, idxs, hidxs, -⟩
    exact ⟨hrange, idxs, hidxs⟩
  · rintro ⟨hrange, idxs, hidxs⟩
    exact ⟨_, hrange, idxs, hidxs, rfl⟩

/-- An accepted text is treated as a name just if it is ASCII. -/
theorem reads_name_iff_of_accepted {s : List Char} (h : ∃ g, fromStr s = .ok g) :
    (((∃ g, fromStr s = .ok g) ↔ Name s) ∧ ∀ g, fromStr s = .ok g → display g = some s) ↔
      ∀ ch ∈ s, ch.toNat < 128 :=
  ⟨fun hreads => (hreads.1.mp h).ascii, reads_name_of_ascii⟩

/-- A text that is not accepted is no name. -/
theorem reads_name_of_not_accepted {s : List Char} (h : ¬ ∃ g, fromStr s = .ok g) :
    ((∃ g, fromStr s = .ok g) ↔ Name s) ∧ ∀ g, fromStr s = .ok g → display g = some s :=
  ⟨iff_of_false h fun hname => h ((reads_name_of_ascii hname.ascii).1.mpr hname),
    fun g hg => absurd ⟨g, hg⟩ h⟩

end Geohash

open Geohash

/-! ### The names of located geohashes -/

namespace Packer

/-- What is out are indices of the table, zeros behind them. -/
structure Indexed (s : Packer) (cs : List (BitVec 8)) : Prop where
  ch_lt : s.ch.toNat < 32
  cursor_eq : s.cursor = cs.length
  lt : ∀ c ∈ cs, c.toNat < 32
  out_eq : s.out = cs ++ List.replicate (maxPrecision - s.cursor) 0

theorem indexed_start : Indexed start [] := ⟨by decide, rfl, by simp, rfl⟩

/-- A further bit keeps a character in the table. -/
theorem toNat_or_lt {ch : BitVec 8} (h : ch.toNat < 32) {i : ℕ} (hi : i ≤ 4) :
    (ch ||| 1#8 <<< i).toNat < 32 := by
  rw [BitVec.toNat_or]
  apply Nat.or_lt_two_pow (n := 5) h
  interval_cases i <;> decide

theorem Indexed.push {s : Packer} {cs : List (BitVec 8)} (h : Indexed s cs)
    (hroom : s.cursor < maxPrecision) (b : Bool) : ∃ cs, Indexed (s.push b) cs := by
  have hch : (if b then s.ch ||| 1#8 <<< (4 - s.bit) else s.ch).toNat < 32 := by
    split_ifs
    · exact toNat_or_lt h.ch_lt (Nat.sub_le _ _)
    · exact h.ch_lt
  by_cases hbit : s.bit < 4
  · refine ⟨cs, ?_, ?_, h.lt, ?_⟩
    · simpa only [Packer.push, if_pos hbit] using hch
    · simpa only [Packer.push, if_pos hbit] using h.cursor_eq
    · simpa only [Packer.push, if_pos hbit] using h.out_eq
  · -- The full character takes the place of the first zero.
    obtain ⟨k, hk⟩ := Nat.exists_eq_succ_of_ne_zero (Nat.sub_ne_zero_of_lt hroom)
    refine ⟨cs ++ [if b then s.ch ||| 1#8 <<< (4 - s.bit) else s.ch], ?_, ?_, ?_, ?_⟩
    · simp only [Packer.push, if_neg hbit]
      decide
    · simp only [Packer.push, if_neg hbit, h.cursor_eq, List.length_append, List.length_singleton]
    · rw [List.forall_mem_append, List.forall_mem_singleton]
      exact ⟨h.lt, hch⟩
    · have hk' : maxPrecision - (s.cursor + 1) = k := by omega
      simp only [Packer.push, if_neg hbit, hk']
      rw [h.out_eq, hk, h.cursor_eq, set_append_replicate]

theorem indexed_packed (l : List Bool) (h : l.length ≤ 5 * maxPrecision) :
    ∃ cs, Indexed (packed l) cs := by
  induction l using List.reverseRecOn with
  | nil => exact ⟨[], indexed_start⟩
  | append_singleton l b ih =>
    rw [List.length_append, List.length_singleton] at h
    obtain ⟨cs, hcs⟩ := ih (by omega)
    have := (packs_packed l (by omega)).length
    rw [packed_append_singleton]
    exact hcs.push (by omega) b

end Packer

namespace Geohash

/-- Indices of the table are those of the characters there. -/
theorem exists_name {cs : List (BitVec 8)} (h : ∀ c ∈ cs, c.toNat < 32) :
    ∃ s, Positions s cs ∧ ∀ ch ∈ s, ch.toNat < 128 := by
  induction cs with
  | nil => exact ⟨[], .nil, by simp⟩
  | cons c cs ih =>
    obtain ⟨hc, hcs⟩ := List.forall_mem_cons.mp h
    obtain ⟨s, hs, hascii⟩ := ih hcs
    obtain ⟨ch, hch, -, hpos⟩ := position_base32 ⟨c.toNat, hc⟩
    obtain ⟨-, -, -, hlt⟩ := position_of_mem hch
    rw [BitVec.ofNat_toNat, BitVec.setWidth_eq] at hpos
    exact ⟨ch :: s, .cons hpos hs, List.forall_mem_cons.mpr ⟨hlt, hascii⟩⟩

/-- What has been read is printed, and read back from what is printed. -/
theorem exists_name_of_fromStr {s : List Char} {g : Geohash} (h : fromStr s = .ok g) :
    ∃ name, display g = some name ∧ fromStr name = .ok g := by
  obtain ⟨⟨hone, hmax⟩, idxs, hidxs, rfl⟩ := fromStr_eq_ok_iff.mp h
  have hlen := hidxs.length_eq
  have hle := length_le_utf8Len s
  -- the characters are the indices, and zeros for the bytes that are no character's first
  have htake : (idxs ++ List.replicate (maxPrecision - s.length) 0).take (utf8Len s)
      = idxs ++ List.replicate (utf8Len s - s.length) 0 := by
    rw [List.take_append, List.take_of_length_le (by omega), List.take_replicate, hlen]
    congr 2
    omega
  have hlt : ∀ c ∈ idxs ++ List.replicate (utf8Len s - s.length) (0 : BitVec 8), c.toNat < 32 := by
    intro c hc
    obtain hc | hc := List.mem_append.mp hc
    · obtain ⟨i, hi, hci⟩ := List.getElem_of_mem hc
      have hpos := hidxs.get (by omega) hi
      simp only [List.get_eq_getElem, hci] at hpos
      obtain ⟨ch, -, hchar, -⟩ := exists_of_position hpos
      exact (List.getElem?_eq_some_iff.mp hchar).1
    · rw [List.eq_of_mem_replicate hc]
      decide
  obtain ⟨name, hname, hascii⟩ := exists_name hlt
  have hnamelen := hname.length_eq
  rw [List.length_append, List.length_replicate, ← hlen] at hnamelen
  have hutf8 := utf8Len_eq_length_iff.mpr hascii
  refine ⟨name, ?_, fromStr_eq_ok_iff.mpr ⟨by omega, _, hname, ?_⟩⟩
  · have hdata : (idxs ++ List.replicate (maxPrecision - s.length) (0 : BitVec 8)).length
        = maxPrecision := by
      rw [List.length_append, List.length_replicate, ← hlen]
      omega
    rw [display, if_pos (hmax.trans_eq hdata.symm), Geohash.chars, htake]
    exact hname.mapM_eq hascii
  · have hprec : utf8Len s = utf8Len name := by omega
    rw [List.append_assoc, List.replicate_append_replicate, hprec]
    congr 3
    omega

end Geohash

/-- **A located geohash is read back from its name.** -/
theorem GeohashStrategy.exists_name_locate (strategy : GeohashStrategy) (point : Point) :
    ∃ s, display (strategy.locate point) = some s ∧
      fromStr s = .ok (strategy.locate point) := by
  have hlen := strategy.length_path point
  have hprec := (bits_encode strategy.le_max hlen).2
  have := strategy.le_max
  have := strategy.one_le
  obtain ⟨cs, hcs⟩ := Packer.indexed_packed (strategy.path point) (by omega)
  obtain ⟨s, hs, hascii⟩ := exists_name hcs.lt
  have hslen := hs.length_eq
  have hutf8 := utf8Len_eq_length_iff.mpr hascii
  have hlocate : strategy.locate point
      = ⟨cs ++ List.replicate (maxPrecision - cs.length) 0, cs.length⟩ := by
    rw [strategy.locate_eq, encode, hcs.out_eq, hcs.cursor_eq]
  have hcslen : cs.length = strategy.precision := by
    rw [← hprec, encode, hcs.cursor_eq]
  rw [hlocate]
  refine ⟨s, ?_, fromStr_eq_ok_iff.mpr ⟨by omega, cs, hs, ?_⟩⟩
  · rw [display_append]
    exact hs.mapM_eq hascii
  · rw [hslen, hutf8, hslen]

/-- **Of which texts the reader accepts the names and no others**, and prints them back: those of
ASCII characters, those of the wrong number of bytes, and those with a character whose low byte is
that of no character of the alphabet.  A located geohash is read back from its name. -/
theorem Geohash.reads_names_iff (s : List Char) (strategy : GeohashStrategy) (point : Point) :
    ((((∃ g, fromStr s = .ok g) ↔ Name s) ∧ ∀ g, fromStr s = .ok g → display g = some s) ↔
        (∀ ch ∈ s, ch.toNat < 128) ∨ ¬ (1 ≤ utf8Len s ∧ utf8Len s ≤ maxPrecision) ∨
          ∃ ch ∈ s, ∀ b ∈ base32, b.toNat ≠ ch.toNat % 256) ∧
      ∃ s, display (strategy.locate point) = some s ∧
        fromStr s = .ok (strategy.locate point) := by
  refine ⟨?_, strategy.exists_name_locate point⟩
  have haccepted := isOk_fromStr_iff (s := s)
  by_cases h : ∃ g, fromStr s = .ok g
  · obtain ⟨hrange, hlow⟩ := haccepted.mp h
    rw [reads_name_iff_of_accepted h]
    refine ⟨Or.inl, ?_⟩
    rintro (hascii | hlen | ⟨ch, hch, hb⟩)
    · exact hascii
    · exact absurd hrange hlen
    · obtain ⟨b, hmem, heq⟩ := hlow ch hch
      exact absurd heq (hb b hmem)
  · refine iff_of_true (reads_name_of_not_accepted h) (.inr ?_)
    rw [haccepted] at h
    by_cases hlen : 1 ≤ utf8Len s ∧ utf8Len s ≤ maxPrecision
    · right
      by_contra hnone
      refine h ⟨hlen, fun ch hch => ?_⟩
      by_contra hb
      exact hnone ⟨ch, hch, fun b hmem heq => hb ⟨b, hmem, heq⟩⟩
    · exact .inl hlen

/-- A dotted capital I is taken for a digit: it has the low byte of one, and two bytes. -/
theorem Geohash.dottedI_reads_as_zeros :
    ¬ ((∃ g, fromStr ['İ'] = .ok g) ↔ Name ['İ']) ∧
      (fromStr ['İ']).toOption.bind display = some ['0', '0'] := by
  have hname : ¬ Name ['İ'] := fun h => absurd (h.ascii 'İ' List.mem_cons_self) (by decide)
  have hread : fromStr ['İ'] = .ok ⟨List.replicate maxPrecision 0, 2⟩ := rfl
  exact ⟨fun h => hname (h.mp ⟨_, hread⟩), by rw [hread]; rfl⟩

end Routers
