import Mathlib.Data.List.DropRight
import Mathlib.Data.List.Forall2
import Mathlib.Data.List.Infix
import Mathlib.Data.Nat.Notation
import Mathlib.Order.Basic
import Mathlib.Tactic.Common
import Mathlib.Tactic.Ring

/-!
# Text

Strings as lists of characters, addressed by bytes: an offset counts the bytes of the
characters before it in UTF-8, and cutting a string at an offset inside a character or past the
end fails.

## Main definitions

* `Text.utf8Len`, `Text.splitAt?` — lengths and cuts in bytes.
* `Text.find` — the offset at which a pattern first occurs.
* `Text.splitTerminator`, `Text.trim` — pieces between separators, and what is between blanks.
* `Text.parseUint` — numbers in decimal.

## Main results

* `splitAt?_eq_some_iff` — **a cut succeeds exactly at the end of a prefix.**
* `exists_of_find`, `find_eq_none_iff` — what is found is an occurrence, if there is one.
* `parseUint_toDigits` — a number printed is read back.
-/

namespace Text

universe u v w

variable {s t pat a b : List Char} {c : Char} {n : ℕ}

/-! ### Characters -/

/-- The characters with the property `White_Space`. -/
def isWhitespace (c : Char) : Bool :=
  let n := c.toNat
  (9 ≤ n && n ≤ 13) || n == 0x20 || n == 0x85 || n == 0xA0 || n == 0x1680 ||
    (0x2000 ≤ n && n ≤ 0x200A) || n == 0x2028 || n == 0x2029 || n == 0x202F || n == 0x205F ||
    n == 0x3000

/-- A property of all ASCII characters, one by one. -/
theorem forall_ascii {P : Char → Prop} (h : ∀ i : Fin 128, P (Char.ofNat i)) (c : Char)
    (hc : c.toNat < 128) : P c := by
  have := h ⟨c.toNat, hc⟩
  rwa [Char.ofNat_toNat] at this

/-- A property of the characters of a text is decided over the text, not over all characters. -/
instance (priority := high) decidableForallMem {P : Char → Prop} [DecidablePred P]
    (s : List Char) : Decidable (∀ c ∈ s, P c) :=
  List.decidableBAll P s

instance (priority := high) decidableExistsMem {P : Char → Prop} [DecidablePred P]
    (s : List Char) : Decidable (∃ c ∈ s, P c) :=
  List.decidableBEx P s

/-- The tables of Unicode that depend on its version, as they are known for ASCII. -/
structure Unicode where
  isNumeric : Char → Bool
  toUppercase : Char → List Char
  toLowercase : List Char → List Char
  isNumeric_ascii : ∀ c, c.toNat < 128 → isNumeric c = c.isDigit
  toUppercase_ascii : ∀ c, c.toNat < 128 → toUppercase c = [c.toUpper]
  toLowercase_ascii : ∀ s, (∀ c ∈ s, c.toNat < 128) → toLowercase s = s.map Char.toLower

/-- The tables of a program that knows nothing beyond ASCII. -/
def Unicode.ascii : Unicode where
  isNumeric := Char.isDigit
  toUppercase c := [c.toUpper]
  toLowercase := List.map Char.toLower
  isNumeric_ascii _ _ := rfl
  toUppercase_ascii _ _ := rfl
  toLowercase_ascii _ _ := rfl

/-- A string in upper case, character by character. -/
def Unicode.uppercase (unicode : Unicode) (s : List Char) : List Char :=
  s.flatMap unicode.toUppercase

/-- The texts are alike, but for the case of ASCII letters. -/
def eqIgnoreAsciiCase (s t : List Char) : Bool := s.map Char.toLower == t.map Char.toLower

/-- Texts are told apart by a character that only one of them has. -/
theorem eqIgnoreAsciiCase_eq_false_left (hc : c ∈ s) (h : ∀ d ∈ t, d.toLower ≠ c.toLower) :
    eqIgnoreAsciiCase s t = false := by
  apply beq_eq_false_iff_ne.mpr
  intro heq
  have hmem : c.toLower ∈ t.map Char.toLower := heq ▸ List.mem_map_of_mem hc
  obtain ⟨d, hd, hdc⟩ := List.mem_map.mp hmem
  exact h d hd hdc

theorem eqIgnoreAsciiCase_comm : eqIgnoreAsciiCase s t = eqIgnoreAsciiCase t s :=
  Bool.beq_comm

theorem eqIgnoreAsciiCase_eq_false_right (hc : c ∈ t) (h : ∀ d ∈ s, d.toLower ≠ c.toLower) :
    eqIgnoreAsciiCase s t = false := by
  rw [eqIgnoreAsciiCase_comm]
  exact eqIgnoreAsciiCase_eq_false_left hc h

/-! ### Lengths and cuts -/

/-- The number of bytes of a string. -/
def utf8Len (s : List Char) : ℕ := (s.map Char.utf8Size).sum

@[simp] theorem utf8Len_nil : utf8Len [] = 0 := rfl

@[simp] theorem utf8Len_cons : utf8Len (c :: s) = c.utf8Size + utf8Len s := List.sum_cons

@[simp] theorem utf8Len_append : utf8Len (s ++ t) = utf8Len s + utf8Len t := by
  simp [utf8Len]

@[simp] theorem utf8Len_eq_zero_iff : utf8Len s = 0 ↔ s = [] := by
  cases s with
  | nil => simp
  | cons c s =>
    have := c.utf8Size_pos
    simp
    omega

theorem utf8Len_le_of_isInfix (h : a <:+: b) : utf8Len a ≤ utf8Len b := by
  obtain ⟨x, y, rfl⟩ := h
  simp only [utf8Len_append]
  omega

/-- Of two prefixes of a text, the shorter one is a prefix of the longer. -/
theorem exists_append_of_utf8Len_le {x y : List Char} (h : a ++ b = x ++ y)
    (hlen : utf8Len a ≤ utf8Len x) : ∃ z, x = a ++ z ∧ b = z ++ y := by
  obtain ⟨z, rfl, rfl⟩ | ⟨z, rfl, rfl⟩ := List.append_eq_append_iff.mp h
  · exact ⟨z, rfl, rfl⟩
  · have hz : utf8Len z = 0 := by
      rw [utf8Len_append] at hlen
      omega
    obtain rfl := utf8Len_eq_zero_iff.mp hz
    exact ⟨[], by simp, by simp⟩

theorem length_le_utf8Len (s : List Char) : s.length ≤ utf8Len s := by
  induction s with
  | nil => simp
  | cons c s ih =>
    have := c.utf8Size_pos
    simp
    omega

/-- ASCII is one byte a character, and nothing else is. -/
theorem utf8Len_eq_length_iff : utf8Len s = s.length ↔ ∀ c ∈ s, c.toNat < 128 := by
  induction s with
  | nil => simp
  | cons c s ih =>
    have hpos := c.utf8Size_pos
    have hle := length_le_utf8Len s
    have hone : c.utf8Size = 1 ↔ c.toNat < 128 := by
      rw [Char.utf8Size_eq_one_iff, UInt32.le_iff_toNat_le]
      exact Nat.lt_succ_iff.symm
    rw [utf8Len_cons, List.length_cons, List.forall_mem_cons, ← ih, ← hone]
    omega

/-- The two sides of a byte offset; `none` inside a character and past the end. -/
def splitAt? : List Char → ℕ → Option (List Char × List Char)
  | s, 0 => some ([], s)
  | [], _ + 1 => none
  | c :: s, n + 1 =>
    if c.utf8Size ≤ n + 1 then
      (splitAt? s (n + 1 - c.utf8Size)).map fun sides => (c :: sides.1, sides.2)
    else none

@[simp] theorem splitAt?_append : splitAt? (a ++ b) (utf8Len a) = some (a, b) := by
  induction a with
  | nil => simp [splitAt?]
  | cons c a ih =>
    have hpos := c.utf8Size_pos
    obtain ⟨n, hn⟩ : ∃ n, utf8Len (c :: a) = n + 1 :=
      Nat.exists_eq_succ_of_ne_zero fun h => by simp at h; omega
    have hsize : c.utf8Size ≤ n + 1 := by simp at hn; omega
    have hrest : n + 1 - c.utf8Size = utf8Len a := by simp at hn; omega
    rw [hn, List.cons_append, splitAt?, if_pos hsize, hrest, ih]
    rfl

/-- **A cut succeeds exactly at the end of a prefix.** -/
theorem splitAt?_eq_some_iff : splitAt? s n = some (a, b) ↔ s = a ++ b ∧ utf8Len a = n := by
  constructor
  · intro h
    induction s, n using splitAt?.induct generalizing a with
    | case1 s =>
      rw [splitAt?] at h
      cases h
      exact ⟨rfl, rfl⟩
    | case2 n => cases h
    | case3 c s n hsize ih =>
      rw [splitAt?, if_pos hsize] at h
      obtain ⟨⟨a', b'⟩, hsides, heq⟩ := Option.map_eq_some_iff.mp h
      cases heq
      obtain ⟨rfl, hlen⟩ := ih hsides
      refine ⟨rfl, ?_⟩
      rw [utf8Len_cons, hlen]
      omega
    | case4 c s n hsize =>
      rw [splitAt?, if_neg hsize] at h
      cases h
  · rintro ⟨rfl, rfl⟩
    exact splitAt?_append

/-- The part between two byte offsets; `none` where cutting it out panics. -/
def slice? (s : List Char) (start stop : ℕ) : Option (List Char) :=
  if start ≤ stop then (splitAt? s stop).bind fun sides => (splitAt? sides.1 start).map Prod.snd
  else none

theorem slice?_append : slice? (a ++ t ++ b) (utf8Len a) (utf8Len (a ++ t)) = some t := by
  rw [slice?, if_pos (by simp), splitAt?_append, Option.bind_some, splitAt?_append]
  rfl

theorem infix_of_slice? {start stop : ℕ} (h : slice? s start stop = some t) :
    t <:+: s := by
  unfold slice? at h
  split_ifs at h
  obtain ⟨⟨a, b⟩, hstop, h⟩ := Option.bind_eq_some_iff.mp h
  obtain ⟨⟨a', b'⟩, hstart, rfl⟩ := Option.map_eq_some_iff.mp h
  obtain ⟨rfl, -⟩ := splitAt?_eq_some_iff.mp hstop
  obtain ⟨rfl, -⟩ := splitAt?_eq_some_iff.mp hstart
  exact ⟨a', b, rfl⟩

/-! ### Searching -/

/-- The byte offset at which a pattern first occurs. -/
def find (pat : List Char) : List Char → Option ℕ
  | [] => if pat = [] then some 0 else none
  | c :: s => if pat <+: c :: s then some 0 else (find pat s).map (c.utf8Size + ·)

theorem find_eq_none_iff : find pat s = none ↔ ¬ pat <:+: s := by
  induction s with
  | nil => simp [find]
  | cons c s ih =>
    rw [find, List.infix_cons_iff, not_or]
    split_ifs with h
    · simp [h]
    · simp [h, ih]

/-- The offset found is that of an occurrence. -/
theorem exists_of_find (h : find pat s = some n) : ∃ a b, s = a ++ (pat ++ b) ∧ utf8Len a = n := by
  induction s generalizing n with
  | nil =>
    rw [find] at h
    split_ifs at h with hpat
    cases h
    exact ⟨[], [], by simp [hpat], rfl⟩
  | cons c s ih =>
    rw [find] at h
    split_ifs at h with hpat
    · cases h
      obtain ⟨b, hb⟩ := hpat
      exact ⟨[], b, hb.symm, rfl⟩
    · obtain ⟨m, hm, rfl⟩ := Option.map_eq_some_iff.mp h
      obtain ⟨a, b, rfl, rfl⟩ := ih hm
      exact ⟨c :: a, b, rfl, utf8Len_cons⟩

/-- A pattern is found behind text in which its first character does not occur. -/
theorem find_append_of_not_mem (hc : c ∉ a) :
    find (c :: pat) (a ++ (c :: pat ++ b)) = some (utf8Len a) := by
  induction a with
  | nil => rw [List.nil_append, List.cons_append, find, if_pos ⟨b, rfl⟩]; rfl
  | cons d a ih =>
    obtain ⟨hd, ha⟩ := not_or.mp (mt List.mem_cons.mpr hc)
    rw [List.cons_append, find, if_neg, ih ha, Option.map_some, utf8Len_cons]
    rintro ⟨b', hb'⟩
    exact hd (List.cons.inj hb').1

/-- A pattern is not found in what lacks its first character. -/
theorem infix_of_infix_append (hc : c ∉ a) (h : c :: pat <:+: a ++ b) : c :: pat <:+: b := by
  induction a with
  | nil => exact h
  | cons d a ih =>
    obtain ⟨hd, ha⟩ := not_or.mp (mt List.mem_cons.mpr hc)
    rw [List.cons_append, List.infix_cons_iff] at h
    obtain ⟨rest, hrest⟩ | h := h
    · exact absurd (List.cons.inj hrest).1 hd
    · exact ih ha h

/-- A pattern does not reach across a character that it lacks. -/
theorem infix_or_infix (hc : c ∉ pat) (h : pat <:+: a ++ c :: b) :
    pat <:+: a ∨ pat <:+: b := by
  obtain ⟨x, y, h⟩ := h
  rw [List.append_assoc, List.append_eq_append_iff] at h
  -- The pattern begins before the character, or behind it.
  obtain ⟨a', rfl, h⟩ | ⟨x', rfl, h⟩ := h
  · obtain ⟨a'', rfl, -⟩ | ⟨pat', rfl, hrest⟩ := List.append_eq_append_iff.mp h
    · exact .inl ⟨x, a'', List.append_assoc x pat a''⟩
    · cases pat' with
      | nil => exact .inl ⟨x, [], by simp⟩
      | cons d pat' =>
        rw [List.cons_append] at hrest
        exact absurd (by simp [(List.cons.inj hrest).1]) hc
  · cases x' with
    | nil =>
      cases pat with
      | nil => exact .inl List.nil_infix
      | cons d pat =>
        rw [List.nil_append, List.cons_append] at h
        exact absurd (List.mem_cons.mpr (.inl (List.cons.inj h).1)) hc
    | cons d x' =>
      rw [List.cons_append] at h
      exact .inr ⟨x', y, by rw [List.append_assoc, (List.cons.inj h).2]⟩

theorem find_char_append (hc : c ∉ a) : find [c] (a ++ c :: b) = some (utf8Len a) :=
  @find_append_of_not_mem [] a b c hc

theorem find_char_eq_none (hc : c ∉ s) : find [c] s = none := by
  rw [find_eq_none_iff, List.singleton_infix_iff]
  exact hc

/-- The byte offset at which a character last occurs. -/
def rfind (c : Char) : List Char → Option ℕ
  | [] => none
  | d :: s =>
    match rfind c s with
    | some n => some (d.utf8Size + n)
    | none => if d = c then some 0 else none

theorem rfind_eq_none (hc : c ∉ s) : rfind c s = none := by
  induction s with
  | nil => rfl
  | cons d s ih =>
    obtain ⟨hd, hs⟩ := not_or.mp (mt List.mem_cons.mpr hc)
    rw [rfind, ih hs]
    exact if_neg (Ne.symm hd)

theorem rfind_append (hc : c ∉ b) : rfind c (a ++ c :: b) = some (utf8Len a) := by
  induction a with
  | nil =>
    rw [List.nil_append, rfind, rfind_eq_none hc]
    exact if_pos rfl
  | cons d a ih =>
    rw [List.cons_append, rfind, ih]
    exact congrArg some utf8Len_cons.symm

/-- The last occurrence of a character. -/
theorem exists_append_cons_of_mem (h : c ∈ s) : ∃ a b, s = a ++ c :: b ∧ c ∉ b := by
  obtain ⟨a, b, hrev, ha⟩ := List.eq_append_cons_of_mem (List.mem_reverse.mpr h)
  refine ⟨b.reverse, a.reverse, ?_, by simpa using ha⟩
  rw [← List.reverse_reverse s, hrev]
  simp

/-! ### Pieces -/

/-- The pieces between separators, less an empty one at the end. -/
def splitTerminator (sep : Char) (s : List Char) : List (List Char) :=
  let pieces := s.splitOn sep
  if pieces.getLast? = some [] then pieces.dropLast else pieces

theorem two_le_length_splitOn (h : c ∈ s) : 2 ≤ (s.splitOn c).length := by
  obtain ⟨a, b, rfl, ha⟩ := List.eq_append_cons_of_mem h
  rw [List.splitOn_append_cons_self_of_not_mem ha, List.length_cons]
  exact Nat.succ_le_succ (List.length_pos_of_ne_nil (List.splitOn_ne_nil c b))

/-- The first of the pieces joined comes first. -/
theorem exists_intercalate_cons {α : Type*} (sep l : List α) (ls : List (List α)) :
    ∃ rest, sep.intercalate (l :: ls) = l ++ rest := by
  cases ls with
  | nil => exact ⟨[], by simp⟩
  | cons l' ls => exact ⟨sep ++ sep.intercalate (l' :: ls), by
      rw [List.intercalate_cons_cons, List.append_assoc]⟩

/-- The first piece begins as the text does. -/
theorem exists_splitOn_append (h : c ∉ a) :
    ∃ t rest b', (a ++ b).splitOn c = (a ++ t) :: rest ∧ b = t ++ b' := by
  induction a with
  | nil =>
    obtain ⟨t, rest, hb⟩ := List.exists_cons_of_ne_nil (List.splitOn_ne_nil c b)
    obtain ⟨b', hb'⟩ := exists_intercalate_cons [c] t rest
    refine ⟨t, rest, b', hb, ?_⟩
    rw [← hb', ← hb, List.intercalate_splitOn]
  | cons d a ih =>
    obtain ⟨hd, ha⟩ := not_or.mp (mt List.mem_cons.mpr h)
    obtain ⟨t, rest, b', hsplit, rfl⟩ := ih ha
    refine ⟨t, rest, b', ?_, rfl⟩
    rw [List.cons_append, List.splitOn_cons_eq_if_modifyHead, if_neg (by simpa using Ne.symm hd),
      hsplit, List.modifyHead_cons, List.cons_append]

theorem exists_splitOn_cons {d : Char} (h : c ≠ d) :
    ∃ t rest, (c :: s).splitOn d = (c :: t) :: rest := by
  have hd : d ∉ [c] := by simpa using h.symm
  obtain ⟨t, rest, -, hsplit, -⟩ := exists_splitOn_append (b := s) hd
  exact ⟨t, rest, hsplit⟩

/-- What is joined is in one of the pieces, or a separator. -/
theorem mem_intercalate {α : Type*} {sep a : α} {ls : List (List α)}
    (h : a ∈ [sep].intercalate ls) : a = sep ∨ ∃ l ∈ ls, a ∈ l := by
  induction ls with
  | nil => cases h
  | cons l ls ih =>
    cases ls with
    | nil => exact .inr ⟨l, List.mem_cons_self, by simpa using h⟩
    | cons l' ls =>
      rw [List.intercalate_cons_cons, List.mem_append, List.mem_append, List.mem_singleton] at h
      obtain (h | rfl) | h := h
      · exact .inr ⟨l, List.mem_cons_self, h⟩
      · exact .inl rfl
      · exact (ih h).imp_right fun ⟨k, hk, ha⟩ => ⟨k, List.mem_cons_of_mem _ hk, ha⟩

/-- What is left between the blanks at either end. -/
def trim (s : List Char) : List Char := (s.dropWhile isWhitespace).rdropWhile isWhitespace

/-- The pieces between blanks. -/
def splitWhitespace (s : List Char) : List (List Char) :=
  (s.splitOnP isWhitespace).filter fun piece => piece ≠ []

theorem trim_isInfix : trim s <:+: s :=
  (List.rdropWhile_prefix _ _).isInfix.trans (List.dropWhile_suffix _).isInfix

theorem length_trim_le : (trim s).length ≤ s.length := trim_isInfix.length_le

theorem not_isWhitespace_head_trim (h : (trim s).head? = some c) : isWhitespace c = false := by
  obtain ⟨rest, hrest⟩ : trim s <+: s.dropWhile isWhitespace := List.rdropWhile_prefix _ _
  obtain ⟨t, ht⟩ := List.head?_eq_some_iff.mp h
  have hdrop := List.head?_dropWhile_not isWhitespace s
  rwa [← hrest, ht, List.cons_append, List.head?_cons] at hdrop

theorem not_isWhitespace_getLast_trim (h : (trim s).getLast? = some c) :
    isWhitespace c = false := by
  have hne : trim s ≠ [] := by
    intro hnil
    simp [hnil] at h
  have hlast := List.rdropWhile_last_not isWhitespace (s.dropWhile isWhitespace) hne
  rw [List.getLast?_eq_some_getLast hne] at h
  rw [← Option.some.inj h]
  exact (Bool.not_eq_true _).mp hlast

/-- A text without blanks at its ends is left as it is. -/
theorem trim_eq_self_iff : trim s = s ↔
    (∀ c, s.head? = some c → isWhitespace c = false) ∧
      ∀ c, s.getLast? = some c → isWhitespace c = false := by
  constructor
  · intro h
    rw [← h]
    exact ⟨fun c => not_isWhitespace_head_trim, fun c => not_isWhitespace_getLast_trim⟩
  · rintro ⟨hhead, hlast⟩
    have hdrop : s.dropWhile isWhitespace = s := by
      cases s with
      | nil => rfl
      | cons c s => rw [List.dropWhile_cons_of_neg (by simp [hhead c rfl])]
    rw [trim, hdrop, List.rdropWhile_eq_self_iff]
    intro hne
    simp [hlast _ (List.getLast?_eq_some_getLast hne)]

/-- A text that begins with no blank keeps its first character. -/
theorem exists_trim_cons (hc : isWhitespace c = false) : ∃ t, trim (c :: s) = c :: t := by
  rw [trim, List.dropWhile_cons_of_neg (by simp [hc])]
  obtain ⟨rest, hrest⟩ := List.rdropWhile_prefix isWhitespace (c :: s)
  cases ht : (c :: s).rdropWhile isWhitespace with
  | nil =>
    have hall := List.rdropWhile_eq_nil_iff.mp ht c List.mem_cons_self
    rw [hc] at hall
    cases hall
  | cons d t =>
    rw [ht, List.cons_append] at hrest
    exact ⟨t, by rw [(List.cons.inj hrest).1]⟩

theorem trim_eq_self_of_forall (h : ∀ c ∈ s, isWhitespace c = false) : trim s = s :=
  trim_eq_self_iff.mpr ⟨fun c hc => h c (List.mem_of_head? hc),
    fun c hc => h c (List.mem_of_getLast? hc)⟩

theorem trim_cons_of_isWhitespace (hc : isWhitespace c) : trim (c :: s) = trim s := by
  rw [trim, List.dropWhile_cons_of_pos hc, trim]

theorem trim_append_of_isWhitespace (hc : isWhitespace c) : trim (s ++ [c]) = trim s := by
  rw [trim, List.dropWhile_append]
  split_ifs with hnil
  · rw [List.isEmpty_iff] at hnil
    rw [List.dropWhile_cons_of_pos hc, trim, hnil, List.dropWhile_nil]
  · rw [List.rdropWhile_concat_pos _ _ _ hc, trim]

/-- Text without blanks before a trimmed text. -/
theorem trim_append_of_forall (ha : ∀ c ∈ a, isWhitespace c = false) (hb : trim b = b) :
    trim (a ++ b) = a ++ b := by
  obtain ⟨hhead, hlast⟩ := trim_eq_self_iff.mp hb
  refine trim_eq_self_iff.mpr ⟨?_, ?_⟩
  · intro c hc
    rw [List.head?_append, Option.or_eq_some_iff] at hc
    obtain hc | ⟨-, hc⟩ := hc
    · exact ha c (List.mem_of_head? hc)
    · exact hhead c hc
  · intro c hc
    rw [List.getLast?_append, Option.or_eq_some_iff] at hc
    obtain hc | ⟨-, hc⟩ := hc
    · exact hlast c hc
    · exact ha c (List.mem_of_getLast? hc)

@[simp] theorem trim_trim : trim (trim s) = trim s :=
  trim_eq_self_iff.mpr
    ⟨fun _ => not_isWhitespace_head_trim, fun _ => not_isWhitespace_getLast_trim⟩

theorem splitWhitespace_eq_singleton (hs : s ≠ []) (h : ∀ c ∈ s, isWhitespace c = false) :
    splitWhitespace s = [s] := by
  rw [splitWhitespace, List.splitOnP_eq_singleton h]
  simp [hs]

/-- Reading the elements of a list one by one succeeds where each is read. -/
theorem mapM_eq_pure_iff {m : Type u → Type v} [Monad m] [LawfulMonad m]
    (hpure : ∀ {α : Type u} {a b : α}, (pure a : m α) = pure b → a = b)
    (hbind : ∀ {α β : Type u} {x : m α} {f : α → m β} {b : β},
      x >>= f = pure b → ∃ a, x = pure a ∧ f a = pure b)
    {α : Type w} {β : Type u} {f : α → m β} {l : List α} {l' : List β} :
    l.mapM f = pure l' ↔ List.Forall₂ (fun a b => f a = pure b) l l' := by
  induction l generalizing l' with
  | nil =>
    rw [List.mapM_nil, List.forall₂_nil_left_iff]
    constructor
    · intro h
      exact (hpure h).symm
    · rintro rfl
      rfl
  | cons a l ih =>
    rw [List.mapM_cons, List.forall₂_cons_left_iff]
    constructor
    · intro h
      obtain ⟨b, hb, h⟩ := hbind h
      obtain ⟨l'', hl, h⟩ := hbind h
      exact ⟨b, l'', hb, ih.mp hl, (hpure h).symm⟩
    · rintro ⟨b, l'', hb, hl, rfl⟩
      rw [hb, pure_bind, ih.mpr hl, pure_bind]

theorem mapM_eq_some_iff {α β : Type*} {f : α → Option β} {l : List α} {l' : List β} :
    l.mapM f = some l' ↔ List.Forall₂ (fun a b => f a = some b) l l' :=
  mapM_eq_pure_iff Option.some.inj fun h => Option.bind_eq_some_iff.mp h

theorem mapM_eq_ok_iff {ε α β : Type*} {f : α → Except ε β} {l : List α} {l' : List β} :
    l.mapM f = .ok l' ↔ List.Forall₂ (fun a b => f a = .ok b) l l' := by
  apply mapM_eq_pure_iff Except.ok.inj
  intro α β x f b h
  cases x with
  | error e => cases h
  | ok a => exact ⟨a, rfl, h⟩

theorem exists_of_mem_left {α β : Type*} {R : α → β → Prop} {l : List α} {l' : List β}
    (h : List.Forall₂ R l l') : ∀ a ∈ l, ∃ b ∈ l', R a b := by
  induction h with
  | nil => simp
  | cons ha _ ih =>
    rw [List.forall_mem_cons]
    refine ⟨⟨_, List.mem_cons_self, ha⟩, ?_⟩
    intro a' ha'
    obtain ⟨b', hb', h⟩ := ih a' ha'
    exact ⟨b', List.mem_cons_of_mem _ hb', h⟩

theorem exists_of_mem_mapM {ε α β : Type*} {f : α → Except ε β} {l : List α} {l' : List β} {b : β}
    (h : l.mapM f = .ok l') (hb : b ∈ l') : ∃ a ∈ l, f a = .ok b :=
  exists_of_mem_left (mapM_eq_ok_iff.mp h).flip b hb

/-- A fold fails where a step fails for the first time. -/
theorem foldlM_eq_error_iff {ε α β : Type*} {f : β → α → Except ε β} {l : List α} {b : β} {e : ε} :
    l.foldlM f b = .error e ↔ ∃ read a rest b', l = read ++ a :: rest ∧
      read.foldlM f b = .ok b' ∧ f b' a = .error e := by
  induction l generalizing b with
  | nil =>
    refine iff_of_false (by rintro ⟨⟩) ?_
    rintro ⟨read, a, rest, b', heq, -⟩
    simp at heq
  | cons a l ih =>
    rw [List.foldlM_cons]
    cases hstep : f b a with
    | error e' =>
      constructor
      · rintro ⟨⟩
        exact ⟨[], a, l, b, rfl, rfl, hstep⟩
      · rintro ⟨read, a', rest, b', heq, hread, hwrong⟩
        cases read with
        | nil =>
          obtain ⟨rfl, rfl⟩ := List.cons.inj heq
          cases hread
          exact hstep.symm.trans hwrong
        | cons _ read =>
          obtain ⟨rfl, rfl⟩ := List.cons.inj heq
          rw [List.foldlM_cons, hstep] at hread
          cases hread
    | ok b' =>
      refine ih.trans ?_
      constructor
      · rintro ⟨read, a', rest, b'', rfl, hread, hwrong⟩
        refine ⟨a :: read, a', rest, b'', rfl, ?_, hwrong⟩
        rw [List.foldlM_cons, hstep]
        exact hread
      · rintro ⟨read, a', rest, b'', heq, hread, hwrong⟩
        cases read with
        | nil =>
          obtain ⟨rfl, rfl⟩ := List.cons.inj heq
          cases hread
          cases hstep.symm.trans hwrong
        | cons _ read =>
          obtain ⟨rfl, rfl⟩ := List.cons.inj heq
          rw [List.foldlM_cons, hstep] at hread
          exact ⟨read, a', rest, b'', rfl, hread, hwrong⟩

/-! ### Numbers -/

/-- A number in decimal, no greater than `max`; a plus sign is allowed. -/
def parseUint (max : ℕ) (s : List Char) : Option ℕ :=
  let digits := match s with
    | '+' :: digits => digits
    | digits => digits
  if digits.isEmpty || !digits.all Char.isDigit || decide (max < Nat.ofDigitChars 10 digits 0) then
    none
  else some (Nat.ofDigitChars 10 digits 0)

theorem parseUint_eq_none {max : ℕ} (hdigit : c.isDigit = false) (hplus : c ≠ '+') :
    parseUint max (c :: s) = none := by
  unfold parseUint
  split
  · next heq =>
    exact absurd (List.cons.inj heq).1 hplus
  · simp [hdigit]

theorem le_of_parseUint {max : ℕ} (h : parseUint max s = some n) : n ≤ max := by
  simp only [parseUint] at h
  split_ifs at h with hlarge
  obtain rfl := Option.some.inj h
  simp only [Bool.or_eq_true, decide_eq_true_eq, not_or, not_lt] at hlarge
  exact hlarge.2

/-- A number printed is read back. -/
theorem parseUint_toDigits {max : ℕ} (h : n ≤ max) :
    parseUint max (Nat.toDigits 10 n) = some n := by
  have hdigits : ∀ c ∈ Nat.toDigits 10 n, c.isDigit := fun c hc =>
    Nat.isDigit_of_mem_toDigits (by decide) (by decide) hc
  have hne : Nat.toDigits 10 n ≠ [] := Nat.toDigits_ne_nil
  obtain ⟨d, digits, heq⟩ := List.exists_cons_of_ne_nil hne
  have hplus : d ≠ '+' := by
    rintro rfl
    exact absurd (hdigits '+' (heq ▸ List.mem_cons_self)) (by decide)
  have hvalue : Nat.ofDigitChars 10 (d :: digits) 0 = n := by
    rw [← heq, Nat.ofDigitChars_ten_toDigits]
  rw [heq] at hdigits ⊢
  unfold parseUint
  split
  · next heq' =>
    exact absurd (List.cons.inj heq').1 hplus
  · simp only [hvalue, List.isEmpty_cons, Bool.false_or, List.all_eq_true.mpr hdigits,
      Bool.not_true, decide_eq_true_eq, not_lt.mpr h, if_false]

end Text
