import Mathlib.Data.List.Nodup

/-!
# Insertion-ordered maps

A map as the list of its entries, no key twice, in the order in which the keys first came.
An insertion replaces the value of a key in place, or appends.  A hash map is read as one
of these whose order is of no account.

## Main definitions

* `IndexMap` — the maps; `get?`, `insert`, `orInsert`, `erase`, `ofList`.

## Main results

* `get?_insert`, `get?_orInsert` — what is found after each operation.
* `mem_entries_iff` — the entries are what is found.
* `get?_ofList` — collected from a list, a key has the last of its values.
-/

/-- Distinct keys with their values, in order of first insertion. -/
structure IndexMap (K V : Type) where
  entries : List (K × V)
  keys_nodup : (entries.map Prod.fst).Nodup

namespace IndexMap

variable {K V : Type}

/-- The map without entries. -/
def empty : IndexMap K V := ⟨[], List.nodup_nil⟩

instance : Inhabited (IndexMap K V) := ⟨empty⟩

/-- The keys, in order. -/
def keys (m : IndexMap K V) : List K := m.entries.map Prod.fst

/-- The values, in the order of their keys. -/
def values (m : IndexMap K V) : List V := m.entries.map Prod.snd

variable [DecidableEq K]

/-! ### Entry lists -/

/-- The value of the first entry with a key. -/
def find (k : K) : List (K × V) → Option V
  | [] => none
  | entry :: l => if entry.1 = k then some entry.2 else find k l

/-- Replace the value of a key where it stands, or append the key. -/
def insertEntry (k : K) (v : V) : List (K × V) → List (K × V)
  | [] => [(k, v)]
  | entry :: l => if entry.1 = k then (k, v) :: l else entry :: insertEntry k v l

theorem find_eq_none_iff {k : K} {l : List (K × V)} : find k l = none ↔ k ∉ l.map Prod.fst := by
  induction l with
  | nil => simp [find]
  | cons entry l ih =>
    rw [find, List.map_cons, List.mem_cons, not_or, ← ih]
    by_cases h : entry.1 = k
    · simp [h]
    · simp [h, Ne.symm h]

theorem mem_iff_find {k : K} {v : V} {l : List (K × V)} (hl : (l.map Prod.fst).Nodup) :
    (k, v) ∈ l ↔ find k l = some v := by
  induction l with
  | nil => simp [find]
  | cons entry l ih =>
    obtain ⟨hnotin, hl⟩ := List.nodup_cons.mp hl
    rw [find, List.mem_cons, ih hl]
    by_cases h : entry.1 = k
    · -- the key stands here, and nowhere behind
      have hnone : find k l = none := find_eq_none_iff.mpr (h ▸ hnotin)
      rw [if_pos h, hnone, Option.some.injEq]
      constructor
      · rintro (heq | hsome)
        · rw [← heq]
        · cases hsome
      · rintro rfl
        exact .inl (Prod.ext h.symm rfl)
    · rw [if_neg h, or_iff_right_of_imp]
      rintro rfl
      exact absurd rfl h

theorem find_insertEntry (k k' : K) (v : V) (l : List (K × V)) :
    find k' (insertEntry k v l) = if k = k' then some v else find k' l := by
  induction l with
  | nil => rfl
  | cons entry l ih =>
    rw [insertEntry]
    by_cases h : entry.1 = k
    · rw [if_pos h, find, find, h]
      split_ifs <;> rfl
    · rw [if_neg h, find, find, ih]
      by_cases h' : entry.1 = k'
      · rw [if_pos h', if_pos h', if_neg (h' ▸ Ne.symm h)]
      · rw [if_neg h', if_neg h']

theorem map_fst_insertEntry (k : K) (v : V) (l : List (K × V)) :
    (insertEntry k v l).map Prod.fst
      = if k ∈ l.map Prod.fst then l.map Prod.fst else l.map Prod.fst ++ [k] := by
  induction l with
  | nil => rfl
  | cons entry l ih =>
    rw [insertEntry]
    by_cases h : entry.1 = k
    · simp [h]
    · rw [if_neg h, List.map_cons, ih, List.map_cons]
      by_cases hmem : k ∈ l.map Prod.fst
      · rw [if_pos hmem, if_pos (List.mem_cons_of_mem _ hmem)]
      · rw [if_neg hmem, if_neg (by simp [Ne.symm h, hmem]), List.cons_append]

/-! ### Maps -/

/-- The value of a key. -/
def get? (m : IndexMap K V) (k : K) : Option V := find k m.entries

/-- The key has a value. -/
def contains (m : IndexMap K V) (k : K) : Bool := (m.get? k).isSome

/-- Give a key a value, in the key's old place if it has one, and at the end if not. -/
def insert (m : IndexMap K V) (k : K) (v : V) : IndexMap K V where
  entries := insertEntry k v m.entries
  keys_nodup := by
    rw [map_fst_insertEntry]
    split_ifs with h
    · exact m.keys_nodup
    · rw [List.nodup_append]
      exact ⟨m.keys_nodup, List.nodup_singleton k, fun a ha b hb => by
        rw [List.mem_singleton.mp hb]
        exact fun heq => h (heq ▸ ha)⟩

/-- Insert a value unless the key has one. -/
def orInsert (m : IndexMap K V) (k : K) (v : V) : IndexMap K V :=
  if m.contains k then m else m.insert k v

/-- Take a key out; the others stay in order. -/
def erase (m : IndexMap K V) (k : K) : IndexMap K V where
  entries := m.entries.filter fun entry => decide (entry.1 ≠ k)
  keys_nodup := m.keys_nodup.sublist (List.filter_sublist.map Prod.fst)

/-- Insert entries one after the other. -/
def insertAll (m : IndexMap K V) (l : List (K × V)) : IndexMap K V :=
  l.foldl (fun m entry => m.insert entry.1 entry.2) m

/-- Collect entries into a map. -/
def ofList (l : List (K × V)) : IndexMap K V := empty.insertAll l

variable {m : IndexMap K V} {k k' : K} {v : V}

@[simp] theorem get?_empty : (empty : IndexMap K V).get? k = none := rfl

theorem mem_entries_iff : (k, v) ∈ m.entries ↔ m.get? k = some v := mem_iff_find m.keys_nodup

@[simp] theorem contains_eq_true_iff : m.contains k = true ↔ ∃ v, m.get? k = some v :=
  Option.isSome_iff_exists

theorem mem_keys_iff : k ∈ m.keys ↔ m.contains k = true := by
  rw [contains, Option.isSome_iff_ne_none, get?, ne_eq, find_eq_none_iff, not_not, keys]

theorem get?_insert : (m.insert k v).get? k' = if k = k' then some v else m.get? k' :=
  find_insertEntry k k' v m.entries

theorem get?_orInsert : (m.orInsert k v).get? k'
    = if k = k' ∧ m.get? k = none then some v else m.get? k' := by
  unfold orInsert contains
  cases hget : m.get? k with
  | none => simp [get?_insert]
  | some v' => simp

theorem find_append (l l' : List (K × V)) : find k (l ++ l') = (find k l).or (find k l') := by
  induction l with
  | nil => rfl
  | cons entry l ih =>
    rw [List.cons_append, find, find, ih]
    split_ifs <;> rfl

/-- After a list of insertions a key has the last of its values there, or what it had. -/
theorem get?_insertAll (l : List (K × V)) (m : IndexMap K V) :
    (m.insertAll l).get? k = (find k l.reverse).or (m.get? k) := by
  induction l generalizing m with
  | nil => rfl
  | cons entry l ih =>
    have hstep : (m.insertAll (entry :: l)).get? k
        = ((m.insert entry.1 entry.2).insertAll l).get? k := rfl
    rw [hstep, ih, get?_insert, List.reverse_cons, find_append, Option.or_assoc, find, find]
    split_ifs <;> rfl

theorem get?_ofList (l : List (K × V)) : (ofList l).get? k = find k l.reverse := by
  rw [ofList, get?_insertAll, get?_empty, Option.or_none]

theorem mem_of_find {l : List (K × V)} (h : find k l = some v) : (k, v) ∈ l := by
  induction l with
  | nil => cases h
  | cons entry l ih =>
    rw [find] at h
    split_ifs at h with hk
    · cases h
      exact hk ▸ List.mem_cons_self
    · exact List.mem_cons_of_mem entry (ih h)

theorem mem_of_get?_ofList {l : List (K × V)} (h : (ofList l).get? k = some v) : (k, v) ∈ l := by
  rw [get?_ofList] at h
  exact List.mem_reverse.mp (mem_of_find h)

theorem contains_ofList_iff {l : List (K × V)} :
    (ofList l).contains k = true ↔ k ∈ l.map Prod.fst := by
  rw [contains, get?_ofList, Option.isSome_iff_ne_none, ne_eq, find_eq_none_iff, not_not,
    List.map_reverse, List.mem_reverse]

end IndexMap
