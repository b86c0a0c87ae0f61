import Routers.Codec.Graph
import Mathlib.Data.List.Induction

/-!
# Sharded networks

A shard is assembled from a source of nodes and edges.  First the nodes that the selection
admits are taken; then the edges are scanned in order, each kept if its source has been
taken by then, and its target taken along with it.  The road an edge belongs to is recorded
as its source node, and the metadata of that node is that of the first edge kept from it.

## Main definitions

* `ShardSource`, `ShardingStrategy`, `Selection` — what a shard is built from.
* `ShardedNetwork.fromSource` — the building, by `Assembly.scanNode` and `Assembly.scanEdge`.
* `Assembly.Inv` — positions are the source's, and edges join nodes that have one.

## Main results

* `Assembly.scanEdge_cases` — **an edge is skipped, or linked with its target taken along.**
* `Assembly.get?_metas_scan`, `Assembly.edgeWeight_scan` — what is kept of the edges that leave a
  node taken from the start.
* `ShardedNetwork.placed_fromSource` — a shard is placed.

## References

`src/libs/routers_shard/src/network.rs` and `src/libs/routers_shard/src/selection.rs`.
-/

namespace Routers

/-- A source of nodes with positions, and of directed edges with weights and metadata. -/
structure ShardSource (E M : Type) where
  nodes : List (E × Point)
  edges : List (E × E × ℕ × M)

/-- A spatial partitioning scheme with cells `S`. -/
structure ShardingStrategy (S : Type) where
  locate : Point → S
  bounds : S → Rect
  neighbours : S → List S

/-- The shards to be loaded, with an optional buffer around the owned one. -/
structure Selection (S : Type) where
  owned : S
  loaded : List S
  padding : Option Rect

namespace Selection

variable {S : Type} [DecidableEq S] (selection : Selection S)

/-- The cell is among those that are loaded. -/
def contains (id : S) : Bool := decide (id ∈ selection.loaded)

/-- The point is in the buffer around the cells. -/
def paddingContains (point : Point) : Bool := selection.padding.any fun rect => rect.contains point

/-- Whether a node at the point belongs in the shard, by the buffer or by its cell. -/
def admits (strategy : ShardingStrategy S) (point : Point) : Bool :=
  selection.paddingContains point || selection.contains (strategy.locate point)

end Selection

/-! ### Assembly -/

/-- A shard under assembly. -/
structure Assembly (E M : Type) where
  graph : GraphStructure E
  hash : IndexMap E (Node E Point)
  metas : IndexMap E M

namespace Assembly

variable {E M S : Type} [DecidableEq E]

/-- Nothing is taken yet. -/
def empty : Assembly E M := ⟨GraphMap.empty, IndexMap.empty, IndexMap.empty⟩

/-- Take a node. -/
def take (s : Assembly E M) (id : E) (pos : Point) : Assembly E M :=
  { s with hash := s.hash.insert id ⟨id, pos⟩, graph := s.graph.addNode id }

/-- Keep an edge, with its metadata if its source has none. -/
def link (s : Assembly E M) (source target : E) (weight : ℕ) (m : M) : Assembly E M :=
  { s with
    graph := s.graph.addEdge source target (weight, DirectionAwareEdgeId.new source)
    metas := s.metas.orInsert source m }

/-- Take a node that the selection admits. -/
def scanNode [DecidableEq S] (strategy : ShardingStrategy S) (selection : Selection S)
    (s : Assembly E M) (entry : E × Point) : Assembly E M :=
  if selection.admits strategy entry.2 then s.take entry.1 entry.2 else s

/-- Keep an edge whose source has been taken, and take its target. -/
def scanEdge (allNodes : IndexMap E Point) (s : Assembly E M) (entry : E × E × ℕ × M) :
    Assembly E M :=
  let (source, target, weight, m) := entry
  if !s.hash.contains source then s
  else if !s.hash.contains target then
    match allNodes.get? target with
    | some pos => (s.take target pos).link source target weight m
    | none => s
  else s.link source target weight m

end Assembly

/-- A network restricted to a selection of shards. -/
structure ShardedNetwork (E M S : Type) where
  graph : GraphStructure E
  hash : IndexMap E (Node E Point)
  metas : IndexMap E M
  owned : S
  loaded : List S

namespace ShardedNetwork

variable {E M S : Type} [DecidableEq E]

/-- The network as a search reads it. -/
def dataPlane (net : ShardedNetwork E M S) : DataPlane E M where
  graph := net.graph
  point id := (net.hash.get? id).map Node.position
  metadata := net.metas.get?

/-- The nodes taken before any edge is scanned. -/
def admitted [DecidableEq S] (source : ShardSource E M) (strategy : ShardingStrategy S)
    (selection : Selection S) : Assembly E M :=
  (IndexMap.ofList source.nodes).entries.foldl (Assembly.scanNode strategy selection) Assembly.empty

/-- What the source is assembled into. -/
def assemble [DecidableEq S] (source : ShardSource E M) (strategy : ShardingStrategy S)
    (selection : Selection S) : Assembly E M :=
  source.edges.foldl (Assembly.scanEdge (IndexMap.ofList source.nodes))
    (admitted source strategy selection)

/-- Build a shard from a source. -/
def fromSource [DecidableEq S] (source : ShardSource E M) (strategy : ShardingStrategy S)
    (selection : Selection S) : ShardedNetwork E M S :=
  let assembly := assemble source strategy selection
  { graph := assembly.graph
    hash := assembly.hash
    metas := assembly.metas
    owned := selection.owned
    loaded := selection.loaded }

end ShardedNetwork

/-! ### What a step does -/

namespace Assembly

variable {E M S : Type} [DecidableEq E] {allNodes : IndexMap E Point} {s s' : Assembly E M}

/-- Positions are those of the source, edges join nodes that have been taken, and the graph
has the nodes that have been taken. -/
structure Inv (allNodes : IndexMap E Point) (s : Assembly E M) : Prop where
  hash_eq : ∀ id n, s.hash.get? id = some n → n.id = id ∧ allNodes.get? id = some n.position
  ends_taken : ∀ a b w, s.graph.edgeWeight a b = some w →
    s.hash.contains a = true ∧ s.hash.contains b = true
  mem_nodes_iff : ∀ id, id ∈ s.graph.nodes ↔ s.hash.contains id = true

/-- An edge has been kept: its target taken along, its weight set and the metadata of its
source with it. -/
structure Linked (allNodes : IndexMap E Point) (s : Assembly E M) (entry : E × E × ℕ × M)
    (s' : Assembly E M) : Prop where
  source_taken : s.hash.contains entry.1 = true
  target_known : (allNodes.get? entry.2.1).isSome
  get?_hash : ∀ id, s'.hash.get? id = if id = entry.2.1
    then (allNodes.get? id).map (Node.mk id) else s.hash.get? id
  edgeWeight_eq : ∀ a b, s'.graph.edgeWeight a b = if (entry.1, entry.2.1) = (a, b)
    then some (entry.2.2.1, DirectionAwareEdgeId.new entry.1) else s.graph.edgeWeight a b
  get?_metas : ∀ id, s'.metas.get? id = if entry.1 = id ∧ s.metas.get? entry.1 = none
    then some entry.2.2.2 else s.metas.get? id
  mem_nodes_iff : ∀ id, id ∈ s'.graph.nodes ↔ id = entry.2.1 ∨ id = entry.1 ∨ id ∈ s.graph.nodes

/-- **A step of the scan** skips its edge, or keeps it. -/
theorem scanEdge_cases (hinv : s.Inv allNodes) (entry : E × E × ℕ × M) :
    (s.scanEdge allNodes entry = s ∧
      (s.hash.contains entry.1 = false ∨ allNodes.get? entry.2.1 = none)) ∨
    Linked allNodes s entry (s.scanEdge allNodes entry) := by
  obtain ⟨source, target, weight, m⟩ := entry
  unfold scanEdge
  simp only
  by_cases hsource : s.hash.contains source = true
  · rw [if_neg (by simp [hsource])]
    by_cases htarget : s.hash.contains target = true
    · -- the target has been taken, and lies where the source says
      rw [if_neg (by simp [htarget])]
      obtain ⟨n, hn⟩ := IndexMap.contains_eq_true_iff.mp htarget
      obtain ⟨hid, hpos⟩ := hinv.hash_eq target n hn
      refine .inr ⟨hsource, by simp [hpos], fun id => ?_, fun a b => GraphMap.edgeWeight_addEdge,
        fun id => IndexMap.get?_orInsert, fun id => GraphMap.mem_nodes_addEdge⟩
      split_ifs with h
      · subst h
        rw [hpos, Option.map_some]
        obtain ⟨nid, npos⟩ := n
        cases hid
        exact hn
      · rfl
    · rw [if_pos (by simp [htarget])]
      cases hpos : allNodes.get? target with
      | none => exact .inl ⟨rfl, .inr rfl⟩
      | some pos =>
        refine .inr ⟨hsource, by simp [hpos], fun id => ?_, fun a b => ?_,
          fun id => IndexMap.get?_orInsert, fun id => ?_⟩
        · change (s.hash.insert target ⟨target, pos⟩).get? id = _
          rw [IndexMap.get?_insert]
          by_cases h : target = id
          · subst h
            rw [if_pos rfl, if_pos rfl, hpos, Option.map_some]
          · rw [if_neg h, if_neg (Ne.symm h)]
        · exact GraphMap.edgeWeight_addEdge
        · change id ∈ ((s.graph.addNode target).addEdge source target _).nodes ↔ _
          rw [GraphMap.mem_nodes_addEdge, GraphMap.mem_nodes_addNode]
          tauto
  · rw [if_pos (by simp [hsource])]
    exact .inl ⟨rfl, .inl (Bool.eq_false_iff.mpr hsource)⟩

theorem Linked.contains_iff {entry : E × E × ℕ × M} (h : Linked allNodes s entry s') (id : E) :
    s'.hash.contains id = true ↔ id = entry.2.1 ∨ s.hash.contains id = true := by
  unfold IndexMap.contains
  rw [h.get?_hash id]
  split_ifs with hid
  · subst hid
    simpa using h.target_known
  · simp [hid]

theorem Linked.inv {entry : E × E × ℕ × M} (h : Linked allNodes s entry s')
    (hinv : s.Inv allNodes) : s'.Inv allNodes where
  hash_eq id n hn := by
    rw [h.get?_hash id] at hn
    split_ifs at hn with hid
    · obtain ⟨pos, hpos, rfl⟩ := Option.map_eq_some_iff.mp hn
      exact ⟨rfl, hpos⟩
    · exact hinv.hash_eq id n hn
  ends_taken a b w hw := by
    rw [h.edgeWeight_eq a b] at hw
    simp only [h.contains_iff]
    split_ifs at hw with hends
    · obtain ⟨rfl, rfl⟩ := Prod.mk.inj hends
      exact ⟨.inr h.source_taken, .inl rfl⟩
    · obtain ⟨ha, hb⟩ := hinv.ends_taken a b w hw
      exact ⟨.inr ha, .inr hb⟩
  mem_nodes_iff id := by
    rw [h.mem_nodes_iff, h.contains_iff, hinv.mem_nodes_iff]
    constructor
    · rintro (htarget | rfl | hs)
      · exact .inl htarget
      · exact .inr h.source_taken
      · exact .inr hs
    · exact fun hid => hid.imp_right .inr

/-- A step keeps the assembly in order. -/
theorem Inv.scanEdge (hinv : s.Inv allNodes) (entry : E × E × ℕ × M) :
    (s.scanEdge allNodes entry).Inv allNodes := by
  rcases scanEdge_cases hinv entry with ⟨heq, -⟩ | hlinked
  · rw [heq]
    exact hinv
  · exact hlinked.inv hinv

/-- What has been taken stays. -/
theorem contains_scanEdge (hinv : s.Inv allNodes) (entry : E × E × ℕ × M) {id : E}
    (h : s.hash.contains id = true) : (s.scanEdge allNodes entry).hash.contains id = true := by
  rcases scanEdge_cases hinv entry with ⟨heq, -⟩ | hlinked
  · rw [heq]
    exact h
  · exact (hlinked.contains_iff id).mpr (.inr h)

/-! ### What a scan does -/

/-- Scan edges in order. -/
def scan (allNodes : IndexMap E Point) (s : Assembly E M) (l : List (E × E × ℕ × M)) :
    Assembly E M := l.foldl (scanEdge allNodes) s

theorem scan_append_singleton (l : List (E × E × ℕ × M)) (entry : E × E × ℕ × M) :
    s.scan allNodes (l ++ [entry]) = (s.scan allNodes l).scanEdge allNodes entry := by
  rw [scan, List.foldl_append, List.foldl_cons, List.foldl_nil, scan]

theorem Inv.scan (hinv : s.Inv allNodes) (l : List (E × E × ℕ × M)) :
    (s.scan allNodes l).Inv allNodes := by
  induction l using List.reverseRecOn with
  | nil => exact hinv
  | append_singleton l entry ih =>
    rw [scan_append_singleton]
    exact ih.scanEdge entry

theorem contains_scan (hinv : s.Inv allNodes) (l : List (E × E × ℕ × M)) {id : E}
    (h : s.hash.contains id = true) : (s.scan allNodes l).hash.contains id = true := by
  induction l using List.reverseRecOn with
  | nil => exact h
  | append_singleton l entry ih =>
    rw [scan_append_singleton]
    exact contains_scanEdge (hinv.scan l) entry ih

/-- Of the edges that leave a node taken from the start, the first whose target is known
gives the node its metadata. -/
theorem get?_metas_scan (hinv : s.Inv allNodes) (l : List (E × E × ℕ × M)) {a : E}
    (ha : s.hash.contains a = true) (hmetas : s.metas.get? a = none) :
    (s.scan allNodes l).metas.get? a
      = (l.find? fun e => decide (e.1 = a) && (allNodes.get? e.2.1).isSome).map fun e => e.2.2.2 := by
  induction l using List.reverseRecOn with
  | nil => exact hmetas
  | append_singleton l entry ih =>
    rw [scan_append_singleton, List.find?_append, List.find?_singleton]
    have htaken := contains_scan hinv l ha
    rcases scanEdge_cases (hinv.scan l) entry with ⟨heq, hskip⟩ | hlinked
    · -- skipped: it leaves another node, or leads nowhere
      have hno : (decide (entry.1 = a) && (allNodes.get? entry.2.1).isSome) = false := by
        rcases hskip with hsource | htarget
        · have hne : entry.1 ≠ a := fun h => by
            rw [h, htaken] at hsource
            cases hsource
          simp [hne]
        · simp [htarget]
      rw [heq, ih, hno]
      simp
    · rw [hlinked.get?_metas, ih, hlinked.target_known]
      by_cases h : entry.1 = a
      · subst h
        rw [ih]
        cases l.find? fun e => decide (e.1 = entry.1) && (allNodes.get? e.2.1).isSome <;> simp
      · rw [if_neg (by simp [h])]
        simp [h]

/-- An edge with other ends changes nothing between two nodes. -/
theorem edgeWeight_scanEdge_ne (hinv : s.Inv allNodes) {entry : E × E × ℕ × M} {a b : E}
    (h : (entry.1, entry.2.1) ≠ (a, b)) :
    (s.scanEdge allNodes entry).graph.edgeWeight a b = s.graph.edgeWeight a b := by
  rcases scanEdge_cases hinv entry with ⟨heq, -⟩ | hlinked
  · rw [heq]
  · rw [hlinked.edgeWeight_eq, if_neg h]

/-- Of the edges that leave a node taken from the start, those whose target is known are
kept; no two are to have the same ends. -/
theorem edgeWeight_scan (hinv : s.Inv allNodes) {l : List (E × E × ℕ × M)}
    (hl : (l.map fun e => (e.1, e.2.1)).Nodup) {a b : E} (ha : s.hash.contains a = true)
    (hedge : s.graph.edgeWeight a b = none) (w : ℕ × DirectionAwareEdgeId E) :
    (s.scan allNodes l).graph.edgeWeight a b = some w ↔
      ∃ weight m, (a, b, weight, m) ∈ l ∧ (allNodes.get? b).isSome ∧
        w = (weight, DirectionAwareEdgeId.new a) := by
  induction l using List.reverseRecOn with
  | nil => simp [scan, hedge]
  | append_singleton l entry ih =>
    rw [List.map_append, List.map_singleton, List.nodup_append] at hl
    obtain ⟨hl, -, hnotin⟩ := hl
    have ih := ih hl
    obtain ⟨source, target, weight, m⟩ := entry
    rw [scan_append_singleton]
    by_cases hends : (source, target) = (a, b)
    · -- the only edge with these ends
      obtain ⟨rfl, rfl⟩ := Prod.mk.inj hends
      have hfresh : ∀ weight' m', (source, target, weight', m') ∉ l := fun weight' m' hmem =>
        hnotin _ (List.mem_map.mpr ⟨_, hmem, rfl⟩) _ (List.mem_singleton_self _) rfl
      have honly : (∃ weight' m', (source, target, weight', m') ∈ l ++ [(source, target, weight, m)] ∧
          (allNodes.get? target).isSome ∧ w = (weight', DirectionAwareEdgeId.new source)) ↔
            (allNodes.get? target).isSome ∧ w = (weight, DirectionAwareEdgeId.new source) := by
        constructor
        · rintro ⟨weight', m', hmem, hknown, hw⟩
          rcases List.mem_append.mp hmem with hmem | hmem
          · exact absurd hmem (hfresh weight' m')
          · cases List.mem_singleton.mp hmem
            exact ⟨hknown, hw⟩
        · exact fun h => ⟨weight, m, by simp, h⟩
      rw [honly]
      rcases scanEdge_cases (hinv.scan l) (source, target, weight, m) with ⟨heq, hskip⟩ | hlinked
      · rw [heq, ih]
        rcases hskip with hsource | htarget
        · rw [contains_scan hinv l ha] at hsource
          cases hsource
        · simp only at htarget
          simp [htarget]
      · rw [hlinked.edgeWeight_eq, if_pos rfl]
        have := hlinked.target_known
        simp only at this
        simp [this, eq_comm]
    · rw [edgeWeight_scanEdge_ne (hinv.scan l) hends, ih]
      have hmem : ∀ weight' m', (a, b, weight', m') ∈ l ++ [(source, target, weight, m)] ↔
          (a, b, weight', m') ∈ l := by
        intro weight' m'
        rw [List.mem_append, List.mem_singleton, or_iff_left_of_imp]
        rintro heq
        cases heq
        exact absurd rfl hends
      simp only [hmem]

/-! ### The nodes taken from the start -/

section Nodes

variable [DecidableEq S] (strategy : ShardingStrategy S) (selection : Selection S)

omit [DecidableEq S] in
theorem contains_take {id₀ : E} {pos₀ : Point} (id : E) :
    (s.take id₀ pos₀).hash.contains id = true ↔ id₀ = id ∨ s.hash.contains id = true := by
  unfold take IndexMap.contains
  simp only [IndexMap.get?_insert]
  split_ifs with h <;> simp [h]

omit [DecidableEq S] in
/-- Taking a node where the source has it keeps the assembly in order. -/
theorem Inv.take (hinv : s.Inv allNodes) {id₀ : E} {pos₀ : Point}
    (hpos₀ : allNodes.get? id₀ = some pos₀) : (s.take id₀ pos₀).Inv allNodes where
  hash_eq id n hn := by
    change (s.hash.insert id₀ ⟨id₀, pos₀⟩).get? id = some n at hn
    rw [IndexMap.get?_insert] at hn
    split_ifs at hn with h
    · cases hn
      exact ⟨h, h ▸ hpos₀⟩
    · exact hinv.hash_eq id n hn
  ends_taken a b w hw := by
    obtain ⟨ha, hb⟩ := hinv.ends_taken a b w hw
    exact ⟨(contains_take a).mpr (.inr ha), (contains_take b).mpr (.inr hb)⟩
  mem_nodes_iff id := by
    rw [contains_take, ← hinv.mem_nodes_iff, eq_comm]
    exact GraphMap.mem_nodes_addNode

/-- Taking nodes of the source, each where the source has it, and none that the selection
does not take. -/
theorem foldl_scanNode_spec (l : List (E × Point)) (hinv : s.Inv allNodes)
    (hl : ∀ entry ∈ l, allNodes.get? entry.1 = some entry.2) :
    (l.foldl (scanNode strategy selection) s).Inv allNodes ∧
      (∀ id, (l.foldl (scanNode strategy selection) s).hash.contains id = true ↔
        s.hash.contains id = true ∨
          ∃ pos, (id, pos) ∈ l ∧ selection.admits strategy pos = true) ∧
      (l.foldl (scanNode strategy selection) s).graph.edges = s.graph.edges ∧
      (l.foldl (scanNode strategy selection) s).metas = s.metas := by
  induction l generalizing s with
  | nil => simp [hinv]
  | cons entry l ih =>
    obtain ⟨id₀, pos₀⟩ := entry
    have hl' : ∀ entry ∈ l, allNodes.get? entry.1 = some entry.2 :=
      fun entry he => hl entry (List.mem_cons_of_mem _ he)
    have hpos₀ : allNodes.get? id₀ = some pos₀ := hl (id₀, pos₀) List.mem_cons_self
    rw [List.foldl_cons]
    by_cases htake : selection.admits strategy pos₀ = true
    · have hstep : scanNode strategy selection s (id₀, pos₀) = s.take id₀ pos₀ := if_pos htake
      obtain ⟨hinv', hiff, hedges, hmetas⟩ := ih (hinv.take hpos₀) hl'
      rw [hstep]
      refine ⟨hinv', fun id => ?_, hedges, hmetas⟩
      rw [hiff, contains_take]
      constructor
      · rintro ((rfl | hs) | ⟨pos, hmem, hpos⟩)
        · exact .inr ⟨pos₀, List.mem_cons_self, htake⟩
        · exact .inl hs
        · exact .inr ⟨pos, List.mem_cons_of_mem _ hmem, hpos⟩
      · rintro (hs | ⟨pos, hmem, hpos⟩)
        · exact .inl (.inr hs)
        · rcases List.mem_cons.mp hmem with heq | hmem
          · exact .inl (.inl (Prod.mk.inj heq).1.symm)
          · exact .inr ⟨pos, hmem, hpos⟩
    · have hstep : scanNode strategy selection s (id₀, pos₀) = s := if_neg htake
      obtain ⟨hinv', hiff, hedges, hmetas⟩ := ih hinv hl'
      rw [hstep]
      refine ⟨hinv', fun id => ?_, hedges, hmetas⟩
      rw [hiff]
      apply or_congr_right
      constructor
      · rintro ⟨pos, hmem, hpos⟩
        exact ⟨pos, List.mem_cons_of_mem _ hmem, hpos⟩
      · rintro ⟨pos, hmem, hpos⟩
        rcases List.mem_cons.mp hmem with heq | hmem
        · cases heq
          exact absurd hpos htake
        · exact ⟨pos, hmem, hpos⟩

end Nodes

end Assembly

namespace ShardedNetwork

variable {E M S : Type} [DecidableEq E] [DecidableEq S] (source : ShardSource E M)
  (strategy : ShardingStrategy S) (selection : Selection S)

/-- Where the source has a node: at the last of the positions it is listed at. -/
def position (id : E) : Option Point := (IndexMap.ofList source.nodes).get? id

/-- The selection admits the node where the source has it. -/
def Admits (id : E) : Prop := ∃ pos, position source id = some pos ∧ selection.admits strategy pos = true

theorem inv_admitted :
    (admitted source strategy selection).Inv (IndexMap.ofList source.nodes) ∧
      (∀ id, (admitted source strategy selection).hash.contains id = true ↔
        Admits source strategy selection id) ∧
      (∀ a b, (admitted source strategy selection).graph.edgeWeight a b = none) ∧
      ∀ id, (admitted source strategy selection).metas.get? id = none := by
  have hempty : (Assembly.empty : Assembly E M).Inv (IndexMap.ofList source.nodes) :=
    ⟨fun _ _ h => (nomatch h), fun _ _ _ h => (nomatch h),
      fun id => ⟨fun h => absurd h List.not_mem_nil, fun h => (nomatch h)⟩⟩
  obtain ⟨hinv, hiff, hedges, hmetas⟩ := Assembly.foldl_scanNode_spec strategy selection
    (IndexMap.ofList source.nodes).entries hempty
    fun entry hentry => IndexMap.mem_entries_iff.mp hentry
  refine ⟨hinv, fun id => ?_, fun a b => ?_, fun id => ?_⟩
  · rw [admitted, hiff]
    simp only [IndexMap.mem_entries_iff]
    exact or_iff_right fun h => (nomatch h)
  · rw [admitted, GraphMap.edgeWeight, hedges]
    rfl
  · rw [admitted, hmetas]
    rfl

theorem inv_assemble :
    (assemble source strategy selection).Inv (IndexMap.ofList source.nodes) :=
  (inv_admitted source strategy selection).1.scan source.edges

/-- **A shard is placed**, whatever its source. -/
theorem placed_fromSource : (fromSource source strategy selection).dataPlane.Placed := by
  intro a b w hw
  obtain ⟨ha, hb⟩ := (inv_assemble source strategy selection).ends_taken a b w hw
  exact ⟨by simpa [dataPlane, fromSource, IndexMap.contains] using ha,
    by simpa [dataPlane, fromSource, IndexMap.contains] using hb⟩

end ShardedNetwork

end Routers
