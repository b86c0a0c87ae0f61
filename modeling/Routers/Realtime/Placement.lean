import Routers.Library.MaxByKey
import Mathlib.Data.List.Nodup
import Mathlib.Data.Prod.Lex

/-!
# Partitions and placement

The stable hashes the fleet agrees on, and what is derived from them: the partition a
vehicle belongs to, and the primary that holds its history.  Placement is by rendezvous: of
all primaries the one whose score against the key is highest, ties broken by the primary's
own hash.

## Main definitions

* `fnv1a`, `mix`, `partitionOf` — the hashing contract.
* `Placement.indexFor` — the position of the primary that owns a key.
* `Placement.owner` — that primary, by its URL.

## Main results

* `Placement.owner_eq` — the owner is the URL with the highest score.
* `Placement.owner_stable` — **placement does not change but where the fleet does.**

## References

`src/libs/routers_realtime/src/store/redis.rs` and `src/libs/routers_realtime/src/partition.rs`.
-/

namespace Routers

open MaxByKey

/-! ### Stable hashes -/

/-- FNV-1a over 64 bits. -/
def fnv1a (bytes : List UInt8) : UInt64 :=
  bytes.foldl (fun hash byte => (hash ^^^ byte.toUInt64) * 0x00000100000001b3) 0xcbf29ce484222325

/-- The finaliser of splitmix64. -/
def mix (x : UInt64) : UInt64 :=
  let x := x ^^^ (x >>> 30)
  let x := x * 0xbf58476d1ce4e5b9
  let x := x ^^^ (x >>> 27)
  let x := x * 0x94d049bb133111eb
  x ^^^ (x >>> 31)

/-- How many partitions the vehicle id space divides into. -/
def partitions : UInt64 := 1024

/-- The partition of a vehicle. -/
def partitionOf (vehicle : UInt64) : UInt64 := mix vehicle % partitions

example : fnv1a "vehicle-42".toUTF8.toList = 0xf4dcea256ede2c6c := by decide +kernel

example : partitionOf 0xdeadbeef = 746 := by decide +kernel

/-! ### Rendezvous placement -/

/-- Which primary owns a key: one hash for each endpoint URL, in the order given. -/
structure Placement where
  seeds : List UInt64

namespace Placement

/-- The hash that identifies a primary. -/
def seed (url : String) : UInt64 := fnv1a url.toUTF8.toList

/-- The placement over the primaries at these addresses. -/
def new (urls : List String) : Placement := ⟨urls.map seed⟩

/-- The score of a seed against the hash of a key; the seed itself breaks ties. -/
def score (hash seed : UInt64) : ℕ ×ₗ ℕ := toLex ((mix (hash ^^^ seed)).toNat, seed.toNat)

/-- The position of the primary that owns a key; `none` where the fleet is empty. -/
def indexFor (placement : Placement) (key : String) : Option ℕ :=
  let hash := fnv1a key.toUTF8.toList
  (maxByKey (fun entry => score hash entry.1) placement.seeds.zipIdx).map Prod.snd

/-- The URL at the position that owns a key. -/
def owner (urls : List String) (key : String) : Option String :=
  ((new urls).indexFor key).bind (urls[·]?)

/-- The owner of a key is the URL with the highest score. -/
theorem owner_eq (urls : List String) (key : String) :
    owner urls key = maxByKey (fun url => score (fnv1a key.toUTF8.toList) (seed url)) urls := by
  have hseeds : (new urls).seeds.zipIdx = urls.zipIdx.map (Prod.map seed id) := by
    rw [new, List.zipIdx_map]
  -- both are read off the highest of the URLs with their positions
  have hurls := maxByKey_map (fun url => score (fnv1a key.toUTF8.toList) (seed url)) Prod.fst
    urls.zipIdx
  rw [List.zipIdx_map_fst] at hurls
  rw [owner, indexFor, hseeds, maxByKey_map, hurls]
  cases hmax : maxByKey (fun p => score (fnv1a key.toUTF8.toList) (seed p.1)) urls.zipIdx with
  | none =>
    simp only [Prod.map_fst]
    rw [hmax]
    rfl
  | some entry =>
    simp only [Prod.map_fst]
    rw [hmax]
    exact List.mem_zipIdx_iff_getElem?.mp (mem_of_maxByKey hmax)

/-- Scores tell seeds apart. -/
theorem score_injective (hash : UInt64) : Function.Injective (score hash) := by
  intro a b h
  have hpair := congrArg ofLex h
  simp only [score, ofLex_toLex, Prod.mk.injEq] at hpair
  exact UInt64.toNat_inj.mp hpair.2

/-- **Placement is stable.**  Over endpoint URLs whose hashes are pairwise distinct, a key has
an owner, whatever the order of the URLs; one URL more takes the key over or leaves it where
it is, and one URL less moves the key only if it was that URL's. -/
theorem owner_stable {urls : List String} (hurls : urls ≠ [])
    (hdistinct : (urls.map seed).Nodup) (key : String) :
    (∃ url ∈ urls, owner urls key = some url) ∧
      (∀ urls', urls.Perm urls' → owner urls' key = owner urls key) ∧
      (∀ added urls', (added :: urls).Perm urls' →
        owner urls' key = some added ∨ owner urls' key = owner urls key) ∧
      ∀ removed urls', urls.Perm (removed :: urls') →
        owner urls key ≠ some removed → owner urls' key = owner urls key := by
  have hscore : Set.InjOn (fun url => score (fnv1a key.toUTF8.toList) (seed url))
      {url | url ∈ urls} := fun url hurl url' hurl' h =>
    List.inj_on_of_nodup_map hdistinct hurl hurl' (score_injective _ h)
  simp only [owner_eq]
  refine ⟨?_, fun urls' hperm => maxByKey_perm hscore hperm,
    fun added urls' hperm => maxByKey_insert hscore hperm,
    fun removed urls' hperm => maxByKey_remove hscore hperm⟩
  obtain ⟨url, hurl⟩ := exists_maxByKey (f := fun url => score (fnv1a key.toUTF8.toList) (seed url))
    hurls
  exact ⟨url, mem_of_maxByKey hurl, hurl⟩

/-- Three primaries. -/
def threePrimaries : List String :=
  ["redis://valkey-000:6379", "redis://valkey-001:6379", "redis://valkey-002:6379"]

/-- A vehicle of theirs stays where it is when the list is turned around or the first of them goes,
and goes at most to a fourth that comes. -/
theorem owner_stable_fleet :
    (∃ url ∈ threePrimaries, owner threePrimaries "vehicle:7:positions" = some url) ∧
      owner threePrimaries.reverse "vehicle:7:positions"
        = owner threePrimaries "vehicle:7:positions" ∧
      (owner ("redis://valkey-003:6379" :: threePrimaries) "vehicle:7:positions"
          = some "redis://valkey-003:6379" ∨
        owner ("redis://valkey-003:6379" :: threePrimaries) "vehicle:7:positions"
          = owner threePrimaries "vehicle:7:positions") ∧
      owner threePrimaries.tail "vehicle:7:positions"
        = owner threePrimaries "vehicle:7:positions" := by
  have hurls : threePrimaries ≠ [] := by decide
  obtain ⟨howner, hperm, hadded, hremoved⟩ :=
    owner_stable hurls (by decide +kernel) "vehicle:7:positions"
  exact ⟨howner, hperm _ (List.reverse_perm _).symm, hadded _ _ (List.Perm.refl _),
    hremoved "redis://valkey-000:6379" _ (List.Perm.refl _) (by decide +kernel)⟩

end Placement

end Routers
