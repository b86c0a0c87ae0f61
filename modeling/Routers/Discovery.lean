import Routers.DataPlane

/-!
# Discovery

What lies in a rectangle is found by an index: a packed tree over the envelopes of a table of
rows, which answers with positions in the table.  The tree is the library's; what is asked of it
is that it finds the envelopes that overlap the rectangle.  An edge is seen in two ways, through
the index with its nodes in place, and by the identifiers of its ends.

## Main definitions

* `TreeSearch`, `TreeSearch.Exact` — the tree, and what is asked of it.
* `RowIndex` — the rows with their envelopes.
* `Edge.thin` — an edge without the positions of its nodes.
* `Discovery` — what the views of a network read, with `Discovery.edge` and `Discovery.fatten`.
* `Discovery.Agrees` — the two views of an edge agree.

## Main results

* `RowIndex.mem_search_iff`, `RowIndex.nodup_search` — **a search finds the rows it is to find,
  each once.**
* `Discovery.agrees_iff` — **the views of an edge agree exactly if it runs along its road.**

## References

`src/libs/routers_network/src/traits/discovery.rs`, `src/libs/routers_network/src/primitive/edge.rs`
and `src/libs/routers_network/src/primitive/index.rs`.
-/

namespace Routers

/-! ### The index -/

/-- Whether two rectangles share a point, their sides included. -/
def Rect.intersects (a b : Rect) : Bool :=
  decide (a.min.x ≤ b.max.x) && decide (b.min.x ≤ a.max.x) &&
    decide (a.min.y ≤ b.max.y) && decide (b.min.y ≤ a.max.y)

/-- The rectangle two points span. -/
def envelopeOf (a b : Point) : Rect :=
  ⟨⟨min a.x b.x, min a.y b.y⟩, ⟨max a.x b.x, max a.y b.y⟩⟩

/-- A point overlaps what contains it. -/
theorem intersects_envelopeOf_self (p : Point) (bounds : Rect) :
    (envelopeOf p p).intersects bounds = bounds.contains p := by
  simp only [Rect.intersects, Rect.contains, envelopeOf, min_self, max_self]
  cases decide (p.x ≤ bounds.max.x) <;> cases decide (p.y ≤ bounds.max.y) <;> simp

/-- The search of the library's tree: of these envelopes, which ones overlap a rectangle. -/
abbrev TreeSearch := List Rect → Rect → List ℕ

/-- The search finds the envelopes that overlap the rectangle, each once. -/
structure TreeSearch.Exact (tree : TreeSearch) : Prop where
  nodup : ∀ envelopes bounds, (tree envelopes bounds).Nodup
  mem_iff : ∀ envelopes bounds idx, idx ∈ tree envelopes bounds ↔
    ∃ envelope, envelopes[idx]? = some envelope ∧ envelope.intersects bounds = true

/-- Look at every envelope. -/
def scanSearch : TreeSearch := fun envelopes bounds =>
  (List.range envelopes.length).filter fun idx => envelopes[idx]?.any (Rect.intersects · bounds)

theorem exact_scanSearch : TreeSearch.Exact scanSearch where
  nodup _ _ := List.nodup_range.filter _
  mem_iff envelopes bounds idx := by
    rw [scanSearch, List.mem_filter, List.mem_range, Option.any_eq_true]
    refine and_iff_right_of_imp ?_
    rintro ⟨envelope, henvelope, -⟩
    exact (List.getElem?_eq_some_iff.mp henvelope).1

/-- Rows, with the envelopes the tree is built over. -/
structure RowIndex (R : Type) where
  tree : List Rect
  rows : List R

namespace RowIndex

variable {R : Type}

/-- Build an index over rows, deriving the envelope of each. -/
def build (rows : List R) (envelope : R → Rect) : RowIndex R := ⟨rows.map envelope, rows⟩

/-- All rows whose envelope intersects a rectangle, in no defined order. -/
def search (search : TreeSearch) (index : RowIndex R) (bounds : Rect) : List R :=
  (search index.tree bounds).filterMap fun idx => index.rows[idx]?

variable {search : TreeSearch} {rows : List R} {envelope : R → Rect} {bounds : Rect} {row : R}

/-- Whatever the tree answers, a row is found. -/
theorem mem_of_mem_search {index : RowIndex R} (h : row ∈ index.search search bounds) :
    row ∈ index.rows := by
  obtain ⟨idx, -, hrow⟩ := List.mem_filterMap.mp h
  exact List.mem_of_getElem? hrow

/-- **A search finds the rows whose envelope intersects the rectangle.** -/
theorem mem_search_iff (h : search.Exact) : row ∈ (build rows envelope).search search bounds ↔
    row ∈ rows ∧ (envelope row).intersects bounds = true := by
  simp only [RowIndex.search, build, List.mem_filterMap, h.mem_iff, List.getElem?_map]
  constructor
  · rintro ⟨idx, ⟨found, hfound, hintersects⟩, hrow⟩
    rw [hrow, Option.map_some, Option.some.injEq] at hfound
    exact ⟨List.mem_of_getElem? hrow, hfound ▸ hintersects⟩
  · rintro ⟨hmem, hintersects⟩
    obtain ⟨idx, hrow⟩ := List.getElem?_of_mem hmem
    exact ⟨idx, ⟨envelope row, by rw [hrow, Option.map_some], hintersects⟩, hrow⟩

/-- **A search finds a row once** that is there once. -/
theorem nodup_search (h : search.Exact) (hrows : rows.Nodup) :
    ((build rows envelope).search search bounds).Nodup := by
  refine (h.nodup _ _).filterMap fun idx idx' row hrow hrow' => ?_
  rw [Option.mem_def] at hrow hrow'
  have hlt := (List.getElem?_eq_some_iff.mp hrow).1
  exact (List.getElem?_inj hlt hrows).mp (hrow.trans hrow'.symm)

end RowIndex

/-! ### Nodes -/

/-- Where a table has a node; one that it has not would panic. -/
def positionOf {E : Type} [DecidableEq E] (hash : IndexMap E (Node E Point)) (id : E) : Point :=
  ((hash.get? id).map Node.position).getD default

theorem positionOf_eq {E : Type} [DecidableEq E] {hash : IndexMap E (Node E Point)} {id : E}
    {n : Node E Point} (h : hash.get? id = some n) : positionOf hash id = n.position := by
  rw [positionOf, h]
  rfl

/-- The index over the nodes of a table. -/
def nodeIndex {E : Type} [DecidableEq E] (hash : IndexMap E (Node E Point)) : RowIndex E :=
  RowIndex.build hash.keys fun id => envelopeOf (positionOf hash id) (positionOf hash id)

/-! ### Edges with nodes -/

namespace DirectionAwareEdgeId

variable {E : Type}

/-- The edge in another direction. -/
def withDirection (edge : DirectionAwareEdgeId E) (direction : Direction) :
    DirectionAwareEdgeId E :=
  { edge with direction := direction }

end DirectionAwareEdgeId

namespace Edge

variable {E : Type}

/-- An edge by the identifiers of its nodes. -/
def thin (e : Edge (Node E Point)) : Edge E where
  source := e.source.id
  target := e.target.id
  id := DirectionAwareEdgeId.new e.id.index.id
  weight := e.weight

/-- The same edge, but for the position that stands in for one of its road. -/
structure Same (e e' : Edge (Node E Point)) : Prop where
  source_eq : e.source = e'.source
  target_eq : e.target = e'.target
  weight_eq : e.weight = e'.weight
  index_eq : e.id.index.id = e'.id.index.id
  direction_eq : e.id.direction = e'.id.direction

end Edge

/-- What the views of a network read: its graph, and where its nodes are looked up. -/
structure Discovery (E : Type) where
  graph : GraphStructure E
  node : E → Option (Node E Point)

namespace Discovery

variable {E : Type} [DecidableEq E] (net : Discovery E)

/-- The road of an edge, as a node that lies nowhere in particular. -/
def placeholder (id : E) : Node E Point := ⟨id, ⟨0, 0⟩⟩

/-- The edge between two nodes. -/
def edge (source target : E) : Option (Edge E) :=
  (net.graph.edgeWeight source target).map fun data =>
    { source := source, target := target, weight := data.1, id := data.2 }

/-- The edge with its nodes in place. -/
def fatten (e : Edge E) : Option (Edge (Node E Point)) := do
  let source ← net.node e.source
  let target ← net.node e.target
  return {
    source := source
    target := target
    id := DirectionAwareEdgeId.new (placeholder e.id.index)
    weight := e.weight }

/-- The edge between two nodes as the index shows it. -/
def indexed (source target : E) : Option (Edge (Node E Point)) := do
  let source ← net.node source
  let target ← net.node target
  let (weight, id) ← net.graph.edgeWeight source.id target.id
  return {
    source := source
    target := target
    id := (DirectionAwareEdgeId.new (placeholder id.index)).withDirection id.direction
    weight := weight }

/-- Nodes are looked up under their own identifier. -/
def Keyed : Prop := ∀ id n, net.node id = some n → n.id = id

/-- The two views of an edge agree. -/
def Agrees (e : Edge (Node E Point)) : Prop := ∃ x, net.edge e.source.id e.target.id = some x ∧
  x = e.thin ∧ ∃ e', net.fatten x = some e' ∧ e'.Same e

variable {net}

theorem indexed_eq_some_iff (hkeyed : net.Keyed) {a b : E} {e : Edge (Node E Point)} :
    net.indexed a b = some e ↔ net.node a = some e.source ∧ net.node b = some e.target ∧
      ∃ id, net.graph.edgeWeight a b = some (e.weight, id) ∧
        e.id = (DirectionAwareEdgeId.new (placeholder id.index)).withDirection id.direction := by
  constructor
  · intro h
    simp only [indexed, Option.bind_eq_bind, Option.bind_eq_some_iff] at h
    obtain ⟨source, hsource, target, htarget, ⟨weight, id⟩, hedge, he⟩ := h
    rw [hkeyed a source hsource, hkeyed b target htarget] at hedge
    cases he
    exact ⟨hsource, htarget, id, hedge, rfl⟩
  · rintro ⟨hsource, htarget, id, hedge, hid⟩
    rw [← hkeyed a _ hsource, ← hkeyed b _ htarget] at hedge
    simp only [indexed, hsource, htarget, hedge, Option.bind_eq_bind, Option.bind_some, ← hid]
    rfl

/-- What is shown for some rows is what the index shows between two nodes. -/
theorem exists_indexed {ends : List (E × E)} {e : Edge (Node E Point)}
    (h : e ∈ ends.filterMap fun ends => net.indexed ends.1 ends.2) :
    ∃ a b, net.indexed a b = some e := by
  obtain ⟨row, -, he⟩ := List.mem_filterMap.mp h
  exact ⟨row.1, row.2, he⟩

/-- **The views of an edge agree exactly if it runs along its road**: the direction is all that
is lost on the way. -/
theorem agrees_iff (hkeyed : net.Keyed) {a b : E} {e : Edge (Node E Point)}
    (h : net.indexed a b = some e) : net.Agrees e ↔
      ∀ data, net.graph.edgeWeight e.source.id e.target.id = some data →
        data.2.direction = .outgoing := by
  obtain ⟨hsource, htarget, id, hedge, hid⟩ := (indexed_eq_some_iff hkeyed).mp h
  have hs := hkeyed a _ hsource
  have ht := hkeyed b _ htarget
  rw [Agrees, edge, hs, ht, hedge]
  constructor
  · rintro ⟨x, hx, hthin, -⟩ data hdata
    cases hx
    cases hdata
    rw [show id = (e.thin).id from congrArg Edge.id hthin]
    rfl
  · intro hdirection
    have hout : id.direction = .outgoing := hdirection _ rfl
    have hindex : e.id.index.id = id.index := by rw [hid]; rfl
    refine ⟨_, rfl, ?_, ⟨e.source, e.target, e.weight,
      DirectionAwareEdgeId.new (placeholder id.index)⟩, ?_, ?_⟩
    · rw [Edge.thin, hs, ht, hindex]
      obtain ⟨road, direction⟩ := id
      cases hout
      rfl
    · simp only [fatten, hsource, htarget, Option.bind_eq_bind, Option.bind_some]
      rfl
    · refine ⟨rfl, rfl, rfl, hindex.symm, ?_⟩
      rw [hid]
      exact hout.symm

end Discovery

end Routers
