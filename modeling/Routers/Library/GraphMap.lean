import Routers.Library.IndexMap

/-!
# Graphs keyed by their nodes

A directed graph whose nodes are their own keys, with at most one edge from a node to
another.  An edge that is added brings its ends along; added again, it changes its weight.

## Main definitions

* `GraphMap N W` — nodes `N`, one weight `W` for each ordered pair that has an edge.
* `addNode`, `addEdge`, `edgeWeight`, `allEdges` — how it is built and read.

## Main results

* `edgeWeight_addEdge`, `mem_nodes_addEdge` — what an added edge changes.
* `edgeWeight_addEdges_isSome_iff` — where there is an edge after a list of them.
* `mem_allEdges_iff` — the edges are those with a weight.
-/

/-- A directed graph with at most one edge for each ordered pair of nodes. -/
structure GraphMap (N W : Type) where
  nodes : List N
  edges : IndexMap (N × N) W
  nodes_nodup : nodes.Nodup
  /-- The ends of an edge are nodes. -/
  ends_mem : ∀ ends ∈ edges.keys, ends.1 ∈ nodes ∧ ends.2 ∈ nodes

namespace GraphMap

variable {N W : Type}

/-- The graph without nodes. -/
def empty : GraphMap N W where
  nodes := []
  edges := IndexMap.empty
  nodes_nodup := List.nodup_nil
  ends_mem := fun _ h => absurd h List.not_mem_nil

instance : Inhabited (GraphMap N W) := ⟨empty⟩

/-- The edges with their weights, in the order in which they were first added. -/
def allEdges (g : GraphMap N W) : List (N × N × W) :=
  g.edges.entries.map fun entry => (entry.1.1, entry.1.2, entry.2)

variable [DecidableEq N]

/-- Add a node, unless it is there. -/
def addNode (g : GraphMap N W) (n : N) : GraphMap N W where
  nodes := if n ∈ g.nodes then g.nodes else g.nodes ++ [n]
  edges := g.edges
  nodes_nodup := by
    split_ifs with h
    · exact g.nodes_nodup
    · exact List.nodup_append.mpr ⟨g.nodes_nodup, List.nodup_singleton n, fun a ha b hb heq =>
        h (List.mem_singleton.mp hb ▸ heq ▸ ha)⟩
  ends_mem := fun ends h => by
    have := g.ends_mem ends h
    split_ifs
    · exact this
    · exact ⟨List.mem_append_left _ this.1, List.mem_append_left _ this.2⟩

/-- The node is in the graph. -/
def containsNode (g : GraphMap N W) (n : N) : Bool := decide (n ∈ g.nodes)

theorem mem_nodes_addNode {g : GraphMap N W} {n n' : N} :
    n' ∈ (g.addNode n).nodes ↔ n' = n ∨ n' ∈ g.nodes := by
  unfold addNode
  simp only
  split_ifs with h
  · exact ⟨.inr, fun h' => h'.elim (fun heq => heq ▸ h) id⟩
  · rw [List.mem_append, List.mem_singleton, or_comm]

/-- Add an edge with its ends, or change its weight. -/
def addEdge (g : GraphMap N W) (a b : N) (w : W) : GraphMap N W where
  nodes := ((g.addNode a).addNode b).nodes
  edges := g.edges.insert (a, b) w
  nodes_nodup := ((g.addNode a).addNode b).nodes_nodup
  ends_mem := fun ends h => by
    simp only [mem_nodes_addNode]
    rw [IndexMap.mem_keys_iff, IndexMap.contains, IndexMap.get?_insert] at h
    split_ifs at h with heq
    · subst heq
      exact ⟨.inr (.inl rfl), .inl rfl⟩
    · have := g.ends_mem ends (IndexMap.mem_keys_iff.mpr h)
      exact ⟨.inr (.inr this.1), .inr (.inr this.2)⟩

/-- Add edges one after the other. -/
def addEdges (g : GraphMap N W) (l : List (N × N × W)) : GraphMap N W :=
  l.foldl (fun g e => g.addEdge e.1 e.2.1 e.2.2) g

/-- The weight of the edge between two nodes, should it exist. -/
def edgeWeight (g : GraphMap N W) (a b : N) : Option W := g.edges.get? (a, b)

variable {g : GraphMap N W} {a b a' b' n : N} {w : W}

theorem mem_allEdges_iff : (a, b, w) ∈ g.allEdges ↔ g.edgeWeight a b = some w := by
  rw [edgeWeight, ← IndexMap.mem_entries_iff, allEdges, List.mem_map]
  constructor
  · rintro ⟨⟨⟨a', b'⟩, w'⟩, hmem, heq⟩
    cases heq
    exact hmem
  · exact fun hmem => ⟨_, hmem, rfl⟩

omit [DecidableEq N] in
/-- No edge is listed twice. -/
theorem nodup_allEdges (g : GraphMap N W) : g.allEdges.Nodup := by
  refine List.Nodup.of_map (fun e => (e.1, e.2.1)) ?_
  rw [allEdges, List.map_map]
  exact g.edges.keys_nodup

@[simp] theorem edgeWeight_empty : (empty : GraphMap N W).edgeWeight a b = none := rfl

@[simp] theorem edgeWeight_addNode : (g.addNode n).edgeWeight a b = g.edgeWeight a b := rfl

theorem edgeWeight_addEdge : (g.addEdge a b w).edgeWeight a' b'
    = if (a, b) = (a', b') then some w else g.edgeWeight a' b' := IndexMap.get?_insert

theorem mem_nodes_addEdge : n ∈ (g.addEdge a b w).nodes ↔ n = b ∨ n = a ∨ n ∈ g.nodes := by
  rw [show (g.addEdge a b w).nodes = ((g.addNode a).addNode b).nodes from rfl,
    mem_nodes_addNode, mem_nodes_addNode]

/-- After a list of edges there is an edge where there was one, or where the list has one. -/
theorem edgeWeight_addEdges_isSome_iff (l : List (N × N × W)) (g : GraphMap N W) (a b : N) :
    ((g.addEdges l).edgeWeight a b).isSome ↔
      (g.edgeWeight a b).isSome ∨ ∃ w, (a, b, w) ∈ l := by
  induction l generalizing g with
  | nil => simp [addEdges]
  | cons e l ih =>
    have hstep : g.addEdges (e :: l) = (g.addEdge e.1 e.2.1 e.2.2).addEdges l := rfl
    rw [hstep, ih, edgeWeight_addEdge]
    obtain ⟨a', b', w'⟩ := e
    by_cases h : (a', b') = (a, b)
    · obtain ⟨rfl, rfl⟩ := Prod.mk.inj h
      simp only [if_pos, Option.isSome_some, true_or, true_iff]
      exact .inr ⟨w', List.mem_cons_self⟩
    · rw [if_neg h]
      refine or_congr_right (exists_congr fun w => ?_)
      rw [List.mem_cons, or_iff_right_of_imp]
      rintro heq
      cases heq
      exact absurd rfl h

/-- A weight found after a list of edges is one of theirs, or was there before. -/
theorem edgeWeight_addEdges_cases {l : List (N × N × W)} {g : GraphMap N W}
    (h : (g.addEdges l).edgeWeight a b = some w) : (a, b, w) ∈ l ∨ g.edgeWeight a b = some w := by
  induction l generalizing g with
  | nil => exact .inr h
  | cons e l ih =>
    obtain ⟨a', b', w'⟩ := e
    have hstep : (g.addEdges ((a', b', w') :: l)) = (g.addEdge a' b' w').addEdges l := rfl
    rw [hstep] at h
    rcases ih h with hmem | hbefore
    · exact .inl (List.mem_cons_of_mem _ hmem)
    · rw [edgeWeight_addEdge] at hbefore
      split_ifs at hbefore with hends
      · cases hends
        cases hbefore
        exact .inl List.mem_cons_self
      · exact .inr hbefore

/-- The ends of an edge are nodes. -/
theorem mem_nodes_of_edgeWeight (h : g.edgeWeight a b = some w) : a ∈ g.nodes ∧ b ∈ g.nodes :=
  g.ends_mem (a, b) (IndexMap.mem_keys_iff.mpr (IndexMap.contains_eq_true_iff.mpr ⟨w, h⟩))

end GraphMap
