import Mathlib.Algebra.Order.Group.Nat
import Mathlib.Data.List.Basic
import Mathlib.Data.Nat.Notation
import Mathlib.Tactic.NormNum
import Mathlib.Tactic.Positivity

/-!
# Files that carry the version of their format

A file begins with a few magic bytes and the version of its format, and a value follows.  Writing
can stop anywhere, and what is left of a file is read by other revisions of the program.  A reader
takes nothing for its own that another version has written.  What it does take it decodes from what
is left of an encoding, and that is the value written if the writer lays values out as the reader
does and an encoding that is cut off is told by its end.

## Main definitions

* `leBytes`, `ofLeBytes` — numbers in bytes, the lowest first.
* `Format.header`, `Format.payload` — what a file begins with, and what follows it.
* `Codec.Lawful` — values are read back, and an encoding that is cut off is not read.
* `Revision` — who writes and reads files; `write`, `read`, `LeftOf`.
* `Disk.write` — a file is written, if all goes well.

## Main results

* `Format.payload_eq_ok_iff` — **what a reader takes for the value.**
* `Revision.decodedOf_of_leftOf` — **what is read from what is left of a file.**
* `Revision.DecodedOf.same` — **that it is the value written**, for writers of one layout.
-/

namespace Framed

/-! ### Numbers in bytes -/

/-- The lowest bytes of a number, the lowest first. -/
def leBytes : ℕ → ℕ → List UInt8
  | 0, _ => []
  | n + 1, v => UInt8.ofNat v :: leBytes n (v / 256)

/-- The number of which these are the bytes. -/
def ofLeBytes : List UInt8 → ℕ
  | [] => 0
  | b :: l => b.toNat + 256 * ofLeBytes l

@[simp] theorem length_leBytes (n v : ℕ) : (leBytes n v).length = n := by
  induction n generalizing v with
  | zero => rfl
  | succ n ih => rw [leBytes, List.length_cons, ih]

theorem ofLeBytes_leBytes (n v : ℕ) : ofLeBytes (leBytes n v) = v % 256 ^ n := by
  induction n generalizing v with
  | zero => simp [leBytes, ofLeBytes, Nat.mod_one]
  | succ n ih =>
    have hbyte : (UInt8.ofNat v).toNat = v % 256 := by simp
    rw [leBytes, ofLeBytes, ih, hbyte, pow_succ', Nat.mod_mul]

theorem leBytes_ofLeBytes (l : List UInt8) : leBytes l.length (ofLeBytes l) = l := by
  induction l with
  | nil => rfl
  | cons b l ih =>
    have hlt := b.toNat_lt
    have hbyte : UInt8.ofNat (b.toNat + 256 * ofLeBytes l) = b := by
      apply UInt8.toNat_inj.mp
      simp only [UInt8.toNat_ofNat']
      omega
    have hrest : (b.toNat + 256 * ofLeBytes l) / 256 = ofLeBytes l := by omega
    rw [ofLeBytes, List.length_cons, leBytes, hbyte, hrest, ih]

theorem ofLeBytes_lt (l : List UInt8) : ofLeBytes l < 256 ^ l.length := by
  have h := ofLeBytes_leBytes l.length (ofLeBytes l)
  rw [leBytes_ofLeBytes] at h
  rw [h]
  exact Nat.mod_lt _ (by positivity)

/-- A 64-bit number is read back from its bytes. -/
theorem ofNat_ofLeBytes_leBytes (v : UInt64) :
    UInt64.ofNat (ofLeBytes (leBytes 8 v.toNat)) = v := by
  have hmod : v.toNat % 256 ^ 8 = v.toNat := Nat.mod_eq_of_lt v.toNat_lt
  rw [ofLeBytes_leBytes, hmod, UInt64.ofNat_toNat]

/-- Eight bytes are those of a 64-bit number. -/
theorem leBytes_ofNat_ofLeBytes {l : List UInt8} (h : l.length = 8) :
    leBytes 8 (UInt64.ofNat (ofLeBytes l)).toNat = l := by
  have hlt : ofLeBytes l < 2 ^ 64 := (ofLeBytes_lt l).trans_le (by rw [h]; norm_num)
  rw [UInt64.toNat_ofNat_of_lt' hlt, ← h]
  exact leBytes_ofLeBytes l

/-! ### Headers -/

/-- The magic bytes and the version that a file begins with. -/
structure Format where
  magic : List UInt8
  version : UInt64

/-- Why a file is refused by its header. -/
inductive Refusal
  | missing
  | version (found : UInt64)
  deriving DecidableEq, Repr

namespace Format

variable (f : Format)

/-- How long the header is. -/
def headerLen : ℕ := f.magic.length + 8

/-- What a file of the format begins with. -/
def header : List UInt8 := f.magic ++ leBytes 8 f.version.toNat

/-- What follows the header of a file, if it is of the format. -/
def payload (bytes : List UInt8) : Except Refusal (List UInt8) :=
  if bytes.length < f.headerLen ∨ bytes.take f.magic.length ≠ f.magic then .error .missing
  else
    let version := UInt64.ofNat (ofLeBytes ((bytes.drop f.magic.length).take 8))
    if version ≠ f.version then .error (.version version) else .ok (bytes.drop f.headerLen)

variable {f}

@[simp] theorem length_header : f.header.length = f.headerLen := by simp [header, headerLen]

/-- Formats with one magic have one header if they have one version. -/
theorem version_eq_of_header {g : Format} (hmagic : g.magic = f.magic) (h : g.header = f.header) :
    g.version = f.version := by
  rw [header, header, hmagic] at h
  have hbytes := List.append_cancel_left h
  rw [← ofNat_ofLeBytes_leBytes g.version, hbytes, ofNat_ofLeBytes_leBytes]

/-- **What a reader takes for the value** is what follows its own header. -/
theorem payload_eq_ok_iff {bytes rest : List UInt8} :
    f.payload bytes = .ok rest ↔ bytes = f.header ++ rest := by
  constructor
  · intro h
    unfold payload at h
    split at h
    · cases h
    rename_i hshape
    rw [not_or, not_lt, not_not] at hshape
    obtain ⟨hlen, hmagic⟩ := hshape
    dsimp only at h
    split at h
    · cases h
    rename_i hversion
    rw [not_not] at hversion
    cases h
    have hfield : ((bytes.drop f.magic.length).take 8).length = 8 := by
      rw [headerLen] at hlen
      simp only [List.length_take, List.length_drop]
      omega
    have hbytes : leBytes 8 f.version.toNat = (bytes.drop f.magic.length).take 8 := by
      rw [← hversion]
      exact leBytes_ofNat_ofLeBytes hfield
    rw [header, hbytes, headerLen, List.append_assoc, ← List.drop_drop, List.take_append_drop]
    conv_lhs => rw [← List.take_append_drop f.magic.length bytes, hmagic]
  · intro h
    subst h
    have hmagic : (f.header ++ rest).take f.magic.length = f.magic := by
      rw [header, List.append_assoc, List.take_left]
    have hversion : ((f.header ++ rest).drop f.magic.length).take 8
        = leBytes 8 f.version.toNat := by
      rw [header, List.append_assoc, List.drop_left, List.take_left']
      exact length_leBytes 8 _
    unfold payload
    rw [if_neg (by simp [hmagic, List.length_append]), hversion, ofNat_ofLeBytes_leBytes]
    dsimp only
    rw [if_neg (not_not.mpr rfl), ← length_header, List.drop_left]

/-- What is left of a file is taken for a value by no other version, and then for part of it. -/
theorem prefix_of_torn {g : Format} (hmagic : g.magic = f.magic) {bytes rest rest' : List UInt8}
    (htorn : bytes <+: f.header ++ rest) (h : g.payload bytes = .ok rest') :
    g.version = f.version ∧ rest' <+: rest := by
  rw [payload_eq_ok_iff.mp h] at htorn
  obtain ⟨tail, htail⟩ := htorn
  have hlen : g.header.length = f.header.length := by
    rw [length_header, length_header, headerLen, headerLen, hmagic]
  rw [List.append_assoc] at htail
  obtain ⟨hheader, hrest⟩ := List.append_inj htail hlen
  exact ⟨version_eq_of_header hmagic hheader, tail, hrest⟩

end Format

/-! ### Values -/

variable {N E : Type*}

/-- How values are encoded and decoded. -/
structure Codec (N E : Type*) where
  encode : N → Except E (List UInt8)
  decode : List UInt8 → Except E N

/-- A value is read back alike, and an encoding that is cut off is not read. -/
structure Codec.Lawful (c : Codec N E) (same : N → N → Prop) : Prop where
  decode_encode : ∀ n bytes, c.encode n = .ok bytes →
    ∃ n', c.decode bytes = .ok n' ∧ same n n'
  decode_torn : ∀ n bytes torn, c.encode n = .ok bytes → torn <+: bytes → torn ≠ bytes →
    ∃ e, c.decode torn = .error e

/-- A revision of a program: the version of the format it writes, and how values are laid out
in it. -/
structure Revision (N E : Type*) where
  version : UInt64
  codec : Codec N E

/-- Why a file is not read. -/
inductive Unread (E : Type*)
  | refused (refusal : Refusal)
  | undecodable (error : E)

namespace Revision

variable (magic : List UInt8) (r : Revision N E)

/-- What the files of the revision begin with. -/
def format : Format := ⟨magic, r.version⟩

/-- The file of a value. -/
def write (n : N) : Except E (List UInt8) :=
  match r.codec.encode n with
  | .error e => .error e
  | .ok payload => .ok ((r.format magic).header ++ payload)

/-- The value of a file. -/
def read (bytes : List UInt8) : Except (Unread E) N :=
  match (r.format magic).payload bytes with
  | .error refusal => .error (.refused refusal)
  | .ok payload =>
    match r.codec.decode payload with
    | .error e => .error (.undecodable e)
    | .ok n => .ok n

/-- What is left of a file with a value. -/
def LeftOf (n : N) (bytes : List UInt8) : Prop :=
  ∃ whole, r.write magic n = .ok whole ∧ bytes <+: whole

/-- Decoded by the revision from what is left of the encoding of a value, which a writer of the same
version has made. -/
def DecodedOf (writer : Revision N E) (n n' : N) : Prop :=
  writer.version = r.version ∧ ∃ encoded payload, writer.codec.encode n = .ok encoded ∧
    payload <+: encoded ∧ r.codec.decode payload = .ok n'

variable {magic r} {writer : Revision N E} {alike : N → N → Prop} {n n' : N} {bytes : List UInt8}

theorem write_eq_ok (h : r.write magic n = .ok bytes) : ∃ payload,
    r.codec.encode n = .ok payload ∧ bytes = (r.format magic).header ++ payload := by
  unfold write at h
  split at h
  · cases h
  · rename_i payload hpayload
    cases h
    exact ⟨payload, hpayload, rfl⟩

theorem read_eq_ok (h : r.read magic bytes = .ok n) : ∃ payload,
    (r.format magic).payload bytes = .ok payload ∧ r.codec.decode payload = .ok n := by
  unfold read at h
  split at h
  · cases h
  · rename_i payload hpayload
    split at h
    · cases h
    · rename_i hdecoded
      cases h
      exact ⟨payload, hpayload, hdecoded⟩

/-- A value that has been written is read back. -/
theorem exists_read (h : r.codec.Lawful alike) (hwrite : r.write magic n = .ok bytes) :
    ∃ n', r.read magic bytes = .ok n' ∧ alike n n' := by
  obtain ⟨payload, hencoded, rfl⟩ := write_eq_ok hwrite
  obtain ⟨n', hdecoded, hsame⟩ := h.decode_encode n payload hencoded
  refine ⟨n', ?_, hsame⟩
  simp only [read, Format.payload_eq_ok_iff.mpr rfl, hdecoded]

/-- **What is read from what is left of a file** has been written in the version of the reader, and
is decoded from what is left of it. -/
theorem decodedOf_of_leftOf (hleft : writer.LeftOf magic n bytes)
    (hread : r.read magic bytes = .ok n') : r.DecodedOf writer n n' := by
  obtain ⟨whole, hwrite, htorn⟩ := hleft
  obtain ⟨encoded, hencoded, rfl⟩ := write_eq_ok hwrite
  obtain ⟨payload, hpayload, hdecoded⟩ := read_eq_ok hread
  obtain ⟨hversion, hprefix⟩ :=
    Format.prefix_of_torn (f := writer.format magic) (g := r.format magic) rfl htorn hpayload
  exact ⟨hversion.symm, encoded, payload, hencoded, hprefix, hdecoded⟩

/-- **If the writer lays values out as the reader does**, that is the value written. -/
theorem DecodedOf.same (h : r.DecodedOf writer n n') (hcodec : writer.codec = r.codec)
    (hlawful : r.codec.Lawful alike) : alike n n' := by
  obtain ⟨-, encoded, payload, hencoded, hprefix, hdecoded⟩ := h
  rw [hcodec] at hencoded
  -- nothing is missing, or it would not have been decoded
  have hwhole : payload = encoded := by
    by_contra hne
    obtain ⟨e, he⟩ := hlawful.decode_torn n encoded payload hencoded hprefix hne
    cases he.symm.trans hdecoded
  obtain ⟨m, hm, hsame⟩ := hlawful.decode_encode n encoded hencoded
  rw [hwhole] at hdecoded
  cases hm.symm.trans hdecoded
  exact hsame

end Revision

/-! ### Writing -/

/-- What comes of writing a file. -/
inductive Disk (E : Type*)
  /-- It cannot be created. -/
  | denied (error : E)
  /-- It is cut off. -/
  | stops (n : ℕ) (error : E)
  | writes

/-- Write a file, in the place of one there may be. -/
def Disk.write (bytes : List UInt8) (file : Option (List UInt8)) :
    Disk E → Except E Unit × Option (List UInt8)
  | denied error => (.error error, file)
  | stops n error => (.error error, some (bytes.take n))
  | writes => (.ok (), some bytes)

/-- There is the file from before, or what is left of the new one; and all of it, if all went
well. -/
theorem Disk.write_cases (bytes : List UInt8) (file : Option (List UInt8)) (disk : Disk E) :
    (∃ e left, disk.write bytes file = (.error e, left) ∧
      (left = file ∨ ∃ torn, torn <+: bytes ∧ left = some torn)) ∨
      disk.write bytes file = (.ok (), some bytes) := by
  cases disk with
  | denied error => exact Or.inl ⟨error, file, rfl, Or.inl rfl⟩
  | stops n error =>
    exact Or.inl ⟨error, some (bytes.take n), rfl, Or.inr ⟨_, List.take_prefix n bytes, rfl⟩⟩
  | writes => exact Or.inr rfl

end Framed
