import Mathlib.Logic.Basic
import Mathlib.Tactic

/-!
# Read-through caches

A cache answers from its entries and calculates what it misses.  The calculation may
read and change the cache's metadata, and may refuse; every `put` may evict other
entries, which ones being up to an oracle asked with the number of the `put`, and
entries may be evicted at any time besides.  As long as what is calculated depends on
the key alone, none of this shows.

## Main definitions

* `ReadThrough.Cache`, `Cache.query`, `Cache.evict` — the cache and its operations.
* `ReadThrough.Cache.Sound` — every entry is the value of its key.

## Main results

* `Cache.Sound.query` — a query of a sound cache answers with the value of its key, and
  leaves the cache sound.
* `Cache.metadata_query` — what it leaves of the metadata.
-/

namespace ReadThrough

/-- A cache from `K` to `V`, with the metadata its calculation works on. -/
structure Cache (K V Meta : Type) where
  entries : K → Option V
  puts : ℕ
  metadata : Meta

namespace Cache

variable {K V Meta : Type}

/-- A cache with no entries. -/
def empty (metadata : Meta) : Cache K V Meta := ⟨fun _ => none, 0, metadata⟩

/-- Evict the entries that are not kept. -/
def evict (keep : K → Bool) (c : Cache K V Meta) : Cache K V Meta :=
  { c with entries := fun k => if keep k then c.entries k else none }

/-- Put a value, evicting what the oracle says. -/
def put [DecidableEq K] (evicts : ℕ → K → Bool) (c : Cache K V Meta) (key : K) (value : V) :
    Cache K V Meta :=
  { c with
    entries := fun k =>
      if k = key then some value else if evicts c.puts k then none else c.entries k
    puts := c.puts + 1 }

/-- Read the entry, or calculate it and put it; `none` when the calculation refuses. -/
def query [DecidableEq K] (evicts : ℕ → K → Bool) (calculate : Meta → K → Option V × Meta)
    (c : Cache K V Meta) (key : K) : Option V × Cache K V Meta :=
  match c.entries key with
  | some value => (some value, c)
  | none =>
    match calculate c.metadata key with
    | (some value, metadata) => (some value, { c with metadata := metadata }.put evicts key value)
    | (none, metadata) => (none, { c with metadata := metadata })

/-- Every entry is the value of its key. -/
def Sound (f : K → V) (c : Cache K V Meta) : Prop := ∀ k v, c.entries k = some v → v = f k

theorem sound_empty (f : K → V) (metadata : Meta) : (empty metadata).Sound f := by
  intro k v h
  cases h

theorem Sound.evict {f : K → V} {c : Cache K V Meta} (h : c.Sound f) (keep : K → Bool) :
    (c.evict keep).Sound f := by
  intro k v hv
  simp only [Cache.evict] at hv
  split_ifs at hv
  exact h k v hv

variable [DecidableEq K]

theorem Sound.put {f : K → V} {c : Cache K V Meta} (h : c.Sound f) (evicts : ℕ → K → Bool)
    (key : K) : (c.put evicts key (f key)).Sound f := by
  intro k v hv
  simp only [Cache.put] at hv
  split_ifs at hv with hk
  · subst hk
    exact (Option.some.inj hv).symm
  · exact h k v hv

/-- A hit is answered from the entries, and changes nothing. -/
theorem query_hit {evicts : ℕ → K → Bool} {calculate : Meta → K → Option V × Meta}
    {c : Cache K V Meta} {key : K} {value : V} (h : c.entries key = some value) :
    c.query evicts calculate key = (some value, c) := by
  rw [query, h]

/-- A miss leaves what the calculation made of the metadata. -/
theorem metadata_miss (evicts : ℕ → K → Bool) (calculate : Meta → K → Option V × Meta)
    {c : Cache K V Meta} {key : K} (h : c.entries key = none) :
    (c.query evicts calculate key).2.metadata = (calculate c.metadata key).2 := by
  rw [query, h]
  rcases hr : calculate c.metadata key with ⟨r, metadata⟩
  cases r with
  | some value => rfl
  | none => rfl

/-- A query keeps the metadata, or leaves what a calculation made of it. -/
theorem metadata_query (evicts : ℕ → K → Bool) (calculate : Meta → K → Option V × Meta)
    (c : Cache K V Meta) (key : K) :
    (c.query evicts calculate key).2.metadata = c.metadata ∨
      (c.query evicts calculate key).2.metadata = (calculate c.metadata key).2 := by
  cases hentry : c.entries key with
  | some value =>
    left
    rw [query_hit hentry]
  | none => exact Or.inr (metadata_miss evicts calculate hentry)

/-- **A query of a sound cache answers with the value of its key**, or is refused, and
leaves the cache sound. -/
theorem Sound.query {f : K → V} {c : Cache K V Meta} (h : c.Sound f) (evicts : ℕ → K → Bool)
    (calculate : Meta → K → Option V × Meta) (key : K)
    (hcalc : ∀ v, (calculate c.metadata key).1 = some v → v = f key) :
    (∀ v, (c.query evicts calculate key).1 = some v → v = f key) ∧
      (c.query evicts calculate key).2.Sound f := by
  cases hentry : c.entries key with
  | some value =>
    rw [query_hit hentry]
    refine ⟨fun v hv => ?_, h⟩
    cases hv
    exact h key value hentry
  | none =>
    rw [Cache.query, hentry]
    rcases hr : calculate c.metadata key with ⟨r, metadata⟩
    rw [hr] at hcalc
    cases r with
    | some value =>
      obtain rfl := hcalc value rfl
      refine ⟨fun v hv => (Option.some.inj hv).symm, ?_⟩
      have hmade : Sound f { c with metadata := metadata } := h
      exact hmade.put evicts key
    | none => exact ⟨fun v hv => (by cases hv), h⟩

/-- A calculation that never refuses makes queries that never do. -/
theorem isSome_query (evicts : ℕ → K → Bool) (calculate : Meta → K → Option V × Meta)
    (c : Cache K V Meta) (key : K) (h : (calculate c.metadata key).1.isSome) :
    (c.query evicts calculate key).1.isSome := by
  cases hentry : c.entries key with
  | some value =>
    rw [query_hit hentry]
    rfl
  | none =>
    rw [Cache.query, hentry]
    rcases hr : calculate c.metadata key with ⟨r, metadata⟩
    rw [hr] at h
    cases r with
    | some value => rfl
    | none => cases h

end Cache

end ReadThrough
