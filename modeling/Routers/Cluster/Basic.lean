import Routers.Library.IndexMap
import Routers.Library.Text
import Routers.Trellis.Basic

/-!
# Density clusters

Points are clustered by density: a point with enough points around it is a core point, and core
points within reach of one another are of one cluster.  The clusters are grown one after another,
each from a stack of points to look around, and every point is classified.  The classes are then
numbered, with one number for all that are not core, and the points regrouped by their numbers:
groups of three or more become clusters with a shape, the others are noise.

The distance is the caller's.  Hulls, their centroids and the geohashes of those are calculated by
libraries, and are parameters here; so is the order in which the groups come out of their hash map.

## Main definitions

* `IntoCluster.rangeQuery`, `expandCluster`, `classify` — the growing of the clusters.
* `Clustered.tryFrom`, `geohashToU64` — a cluster with its shape.
* `Cluster.tryFrom` — the regrouping.
* `IntoCluster.cluster` — the whole.

## References

`src/libs/routers_geo/src/cluster.rs` and `src/libs/routers_geo/src/error.rs`.
-/

namespace Routers

open Text

/-! ### Clusters with a shape -/

/-- Why no cluster is made of points: they have no hull or no centroid, or the geohash fails. -/
inductive GeoError (E : Type)
  | invalidCoordinate (message : String)
  | geoHashError (error : E)
  deriving Repr

/-- What is calculated of points elsewhere. -/
structure Shapes (P H E : Type) where
  convexHull : List P → H
  centroid : H → Option P
  encode : P → ℕ → Except E (List Char)

/-- Clustered points, with the hull and its centroid. -/
structure Clustered (T P H : Type) where
  id : UInt64
  points : List T
  convexHull : H
  centroid : P

/-- The clusters, and what is in none. -/
structure Cluster (T P H : Type) where
  noise : List T
  clustered : List (Clustered T P H)

/-- The characters of a geohash, in the order of their values. -/
def base32Alphabet : List Char := "0123456789bcdefghjkmnpqrstuvwxyz".toList

/-- Pack a geohash of eight characters, a byte for each. -/
def geohashToU64 (geohash : List Char) : Option UInt64 :=
  if 8 < utf8Len geohash then none
  else geohash.zipIdx.foldlM (fun result p =>
    (base32Alphabet.findIdx? (· = p.1)).map fun index =>
      result ||| ((UInt8.ofNat index <<< 3).toUInt64 <<< UInt64.ofNat (8 * (7 - p.2)))) 0

variable {T P H E D : Type}

/-- A cluster of points: it is named by the geohash of its hull's centroid. -/
def Clustered.tryFrom (shapes : Shapes P H E) (toPoint : T → P) (points : List T) :
    Except (GeoError E) (Clustered T P H) :=
  let convexHull := shapes.convexHull (points.map toPoint)
  match shapes.centroid convexHull with
  | none => .error (.invalidCoordinate "")
  | some centroid =>
    match shapes.encode centroid 8 with
    | .error error => .error (.geoHashError error)
    | .ok encoding =>
      match geohashToU64 encoding with
      | none => .error (.invalidCoordinate "GeoHash too wide, expected depth of 8.")
      | some id => .ok ⟨id, points, convexHull, centroid⟩

/-! ### Regrouping -/

namespace Cluster

/-- The points by their numbers. -/
def groups (value : List (ℕ × T)) : IndexMap ℕ (List T) :=
  value.foldl (fun map p =>
    match map.get? p.1 with
    | none => map.insert p.1 [p.2]
    | some group => map.insert p.1 (group ++ [p.2])) IndexMap.empty

/-- Three points or more are a cluster, fewer are noise.  Where the cluster fails it is logged, and
its points go nowhere. -/
def take (shapes : Shapes P H E) (toPoint : T → P) (out : Cluster T P H) (group : List T) :
    Cluster T P H :=
  if 3 ≤ group.length then
    match Clustered.tryFrom shapes toPoint group with
    | .ok cluster => { out with clustered := out.clustered ++ [cluster] }
    | .error _ => out
  else { out with noise := out.noise ++ group }

/-- Regroup numbered points.  This fails nowhere. -/
def tryFrom (shapes : Shapes P H E) (toPoint : T → P)
    (arrange : List (ℕ × List T) → List (ℕ × List T)) (value : List (ℕ × T)) : Cluster T P H :=
  ((arrange (groups value).entries).map Prod.snd).foldl (take shapes toPoint) ⟨[], []⟩

end Cluster

/-! ### Growing the clusters -/

/-- What a point is while clusters are grown. -/
inductive Classification
  | core (id : ℕ)
  | edge (id : ℕ)
  | noise
  deriving DecidableEq, Repr

/-- The number a point is regrouped by, in 32 bits: `0` for all that are not core. -/
def Classification.number : Classification → ℕ
  | core id => wrappingAdd (id % u32Modulus) 1
  | _ => 0

/-- Classes, marks and the stack, its top first. -/
structure Growth where
  c : List Classification
  v : List Bool
  queue : List ℕ
  newCluster : Bool

/-- A point near a core point is an edge at least, and is looked around unless it was. -/
def Growth.meet (cluster : ℕ) (s : Growth) (nIdx : ℕ) : Growth :=
  let c := if s.c.getD nIdx .noise = .noise then s.c.set nIdx (.edge cluster) else s.c
  if s.v.getD nIdx false then { s with c := c }
  else { s with c := c, v := s.v.set nIdx true, queue := nIdx :: s.queue }

/-- How to cluster. -/
structure IntoCluster (P D : Type) where
  epsilon : D
  cCapacity : ℕ
  distance : P → P → D

namespace IntoCluster

variable [LT D] [DecidableLT D] (self : IntoCluster P D)

/-- The positions of the points closer than `epsilon`. -/
def rangeQuery (sample : P) (population : List P) : List ℕ :=
  (population.zipIdx.filter fun p => self.distance sample p.1 < self.epsilon).map Prod.snd

/-- Look around the points on the stack until there are none.  `none` is a panic, or too little
fuel. -/
def expandCluster (population : List P) (cluster : ℕ) : ℕ → Growth → Option Growth
  | _, ⟨c, v, [], newCluster⟩ => some ⟨c, v, [], newCluster⟩
  | 0, ⟨_, _, _ :: _, _⟩ => none
  | fuel + 1, ⟨c, v, ind :: queue, newCluster⟩ =>
    population[ind]?.bind fun sample =>
      let neighbors := self.rangeQuery sample population
      if neighbors.length < self.cCapacity then
        expandCluster population cluster fuel ⟨c, v, queue, newCluster⟩
      else
        expandCluster population cluster fuel
          (neighbors.foldl (Growth.meet cluster) ⟨c.set ind (.core cluster), v, queue, true⟩)

/-- Classes and marks between two expansions, and the next cluster's number. -/
structure Sweep where
  c : List Classification
  v : List Bool
  cluster : ℕ

/-- Expand from one position, unless it was looked around. -/
def sweep (population : List P) (s : Sweep) (idx : ℕ) : Option Sweep :=
  if s.v.getD idx false then some s
  else (self.expandCluster population s.cluster population.length
      ⟨s.c, s.v.set idx true, [idx], false⟩).map fun e =>
    ⟨e.c, e.v, if e.newCluster then s.cluster + 1 else s.cluster⟩

/-- The class of each point. -/
def classify (population : List P) : Option (List Classification) :=
  ((List.range population.length).foldlM (self.sweep population)
    ⟨List.replicate population.length .noise, List.replicate population.length false, 0⟩).map
    Sweep.c

/-- Cluster a population. -/
def cluster (shapes : Shapes P H E) (toPoint : T → P)
    (arrange : List (ℕ × List T) → List (ℕ × List T)) (population : List T) :
    Option (Cluster T P H) :=
  (self.classify (population.map toPoint)).map fun c =>
    Cluster.tryFrom shapes toPoint arrange
      ((c.zip population).map fun p => (p.1.number, p.2))

end IntoCluster

end Routers
