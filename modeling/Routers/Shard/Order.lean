import Routers.Shard.Network

/-!
# Shards and the order of their sources

The set of nodes that decides which edges a shard keeps grows while the edges are scanned:
a target is taken along with its edge, and an edge that leaves it is kept if it comes later
and skipped if it came before.

## Main definitions

* `ShardSource.NodeBelongs`, `ShardSource.EdgeBelongs` — what belongs in the shard of a selection: what is
  admitted, the edges that leave it, and their targets.
* `ShardSource.OrderIndependent` — in any order, a source is built into what belongs.
* `ShardSource.Settled` — no edge leads on from a target, and no node that belongs is listed at two
  positions.

## Main results

* `Assembly.contains_scan_iff` — what a scan takes where no edge leads on from a target.
* `ShardSource.orderIndependent_iff` — **building is independent of order for the settled sources.**

## References

`src/libs/routers_shard/src/network.rs`.
-/

namespace Routers

namespace Assembly

variable {E M : Type} [DecidableEq E] {allNodes : IndexMap E Point} {s : Assembly E M}

/-- Where no edge leads on from a target taken along, what is taken is what was there and the
targets of its edges, and no edge leaves anything else. -/
theorem contains_scan_iff (hinv : s.Inv allNodes) {l : List (E × E × ℕ × M)}
    (hchain : ∀ e ∈ l, ∀ e' ∈ l, s.hash.contains e.1 = true → s.hash.contains e.2.1 = false →
      (allNodes.get? e.2.1).isSome → e'.1 = e.2.1 → allNodes.get? e'.2.1 = none) :
    (∀ id, (s.scan allNodes l).hash.contains id = true ↔ s.hash.contains id = true ∨
      ∃ e ∈ l, s.hash.contains e.1 = true ∧ e.2.1 = id ∧ (allNodes.get? id).isSome) ∧
    ∀ a b, s.hash.contains a = false →
      (s.scan allNodes l).graph.edgeWeight a b = s.graph.edgeWeight a b := by
  induction l using List.reverseRecOn with
  | nil => simp [scan]
  | append_singleton l entry ih =>
    obtain ⟨hiff, hedges⟩ := ih fun e he e' he' =>
      hchain e (List.mem_append_left _ he) e' (List.mem_append_left _ he')
    have hentry : entry ∈ l ++ [entry] := List.mem_append_right _ (List.mem_singleton_self entry)
    rw [scan_append_singleton]
    simp only [List.mem_append, List.mem_singleton, or_and_right, exists_or, exists_eq_left]
    rcases scanEdge_cases (hinv.scan l) entry with ⟨heq, hskip⟩ | hlinked
    · rw [heq]
      refine ⟨fun id => ?_, hedges⟩
      rw [hiff, ← or_assoc]
      refine (or_iff_left ?_).symm
      -- an edge of a node taken from the start is skipped only if its target is unknown
      rintro ⟨hsource, rfl, hknown⟩
      rcases hskip with hskip | hskip
      · rw [contains_scan hinv l hsource] at hskip
        cases hskip
      · rw [hskip] at hknown
        cases hknown
    · -- what is linked leaves a node taken from the start
      have hsource : s.hash.contains entry.1 = true := by
        rcases (hiff entry.1).mp hlinked.source_taken with h | ⟨e, he, hs, htarget, hknown⟩
        · exact h
        · by_contra hnot
          have := hchain e (List.mem_append_left _ he) entry hentry hs
            (htarget ▸ Bool.eq_false_iff.mpr hnot) (htarget ▸ hknown) htarget.symm
          have hlinkedTarget := hlinked.target_known
          rw [this] at hlinkedTarget
          cases hlinkedTarget
      refine ⟨fun id => ?_, fun a b ha => ?_⟩
      · rw [hlinked.contains_iff, hiff, or_comm, ← or_assoc]
        refine or_congr_right ⟨?_, fun h => h.2.1.symm⟩
        rintro rfl
        exact ⟨hsource, rfl, hlinked.target_known⟩
      · have hne : (entry.1, entry.2.1) ≠ (a, b) := by
          intro h
          rw [(Prod.mk.inj h).1, ha] at hsource
          cases hsource
        rw [hlinked.edgeWeight_eq, if_neg hne, hedges a b ha]

/-- What is joined stays joined. -/
theorem edgeWeight_scan_isSome (hinv : s.Inv allNodes) (l : List (E × E × ℕ × M)) {a b : E}
    (h : (s.graph.edgeWeight a b).isSome) : ((s.scan allNodes l).graph.edgeWeight a b).isSome := by
  induction l using List.reverseRecOn with
  | nil => exact h
  | append_singleton l entry ih =>
    rw [scan_append_singleton]
    rcases scanEdge_cases (hinv.scan l) entry with ⟨heq, -⟩ | hlinked
    · rw [heq]
      exact ih
    · rw [hlinked.edgeWeight_eq]
      split_ifs
      · rfl
      · exact ih

/-- An edge whose source has been taken and whose target is known is kept. -/
theorem linked_scanEdge (hinv : s.Inv allNodes) (entry : E × E × ℕ × M)
    (hsource : s.hash.contains entry.1 = true) (htarget : (allNodes.get? entry.2.1).isSome) :
    Linked allNodes s entry (s.scanEdge allNodes entry) := by
  rcases scanEdge_cases hinv entry with ⟨-, hskip | hskip⟩ | hlinked
  · rw [hsource] at hskip
    cases hskip
  · rw [hskip] at htarget
    cases htarget
  · exact hlinked

end Assembly

namespace ShardSource

open ShardedNetwork

variable {E M S : Type} [DecidableEq S] (source : ShardSource E M)
  (strategy : ShardingStrategy S) (selection : Selection S)

/-- The source lists the node. -/
def Lists (id : E) : Prop := ∃ pos, (id, pos) ∈ source.nodes

/-- The source lists the node where the selection admits it. -/
def ListsAdmitted (id : E) : Prop :=
  ∃ pos, (id, pos) ∈ source.nodes ∧ selection.admits strategy pos = true

/-- The node belongs in the shard: it is admitted, or some edge leads to it from one that is. -/
def NodeBelongs (n : Node E Point) : Prop :=
  (n.id, n.position) ∈ source.nodes ∧ (selection.admits strategy n.position = true ∨
    ∃ e ∈ source.edges, source.ListsAdmitted strategy selection e.1 ∧ e.2.1 = n.id)

/-- The edge belongs in the shard: it leaves a node that is admitted, for one that is listed. -/
def EdgeBelongs (a b : E) (weight : ℕ) : Prop :=
  ∃ m, (a, b, weight, m) ∈ source.edges ∧ source.ListsAdmitted strategy selection a ∧ source.Lists b

/-- A node that belongs is listed at one position only, and no edge leads on, to a listed node,
from one that is taken along as a target only. -/
structure Settled : Prop where
  one_position : ∀ n, source.NodeBelongs strategy selection n →
    ∀ pos, (n.id, pos) ∈ source.nodes → pos = n.position
  no_chain : ∀ e ∈ source.edges, ∀ e' ∈ source.edges,
    source.ListsAdmitted strategy selection e.1 → ¬ source.ListsAdmitted strategy selection e.2.1 →
      source.Lists e.2.1 → e'.1 = e.2.1 → ¬ source.Lists e'.2.1

section Order

variable {source strategy selection}

/-- What belongs does not depend on the order of the source. -/
theorem nodeBelongs_perm {T : ShardSource E M} (hnodes : T.nodes.Perm source.nodes)
    (hedges : T.edges.Perm source.edges) (n : Node E Point) :
    T.NodeBelongs strategy selection n ↔ source.NodeBelongs strategy selection n := by
  simp only [NodeBelongs, ListsAdmitted, hnodes.mem_iff, hedges.mem_iff]

theorem edgeBelongs_perm {T : ShardSource E M} (hnodes : T.nodes.Perm source.nodes)
    (hedges : T.edges.Perm source.edges) (a b : E) (weight : ℕ) :
    T.EdgeBelongs strategy selection a b weight ↔
      source.EdgeBelongs strategy selection a b weight := by
  simp only [EdgeBelongs, ListsAdmitted, Lists, hnodes.mem_iff, hedges.mem_iff]

theorem Settled.perm {T : ShardSource E M} (h : source.Settled strategy selection)
    (hnodes : T.nodes.Perm source.nodes) (hedges : T.edges.Perm source.edges) :
    T.Settled strategy selection where
  one_position n hn pos hpos :=
    h.one_position n ((nodeBelongs_perm hnodes hedges n).mp hn) pos (hnodes.mem_iff.mp hpos)
  no_chain e he e' he' := by
    have := h.no_chain e (hedges.mem_iff.mp he) e' (hedges.mem_iff.mp he')
    simpa only [ListsAdmitted, Lists, hnodes.mem_iff] using this

end Order

variable [DecidableEq E]

/-- The shard has the nodes and edges that belong, and no others. -/
structure BuiltInto (shard : ShardedNetwork E M S) : Prop where
  hash_iff : ∀ n, shard.hash.get? n.id = some n ↔ source.NodeBelongs strategy selection n
  nodes_iff : ∀ id, id ∈ shard.graph.nodes ↔ ∃ n, n.id = id ∧ source.NodeBelongs strategy selection n
  edges_iff : ∀ a b weight, (∃ id, shard.graph.edgeWeight a b = some (weight, id)) ↔
    source.EdgeBelongs strategy selection a b weight

/-- In whatever order it hands out its nodes and edges, the source is built into what belongs. -/
def OrderIndependent : Prop :=
  ∀ nodes edges, nodes.Perm source.nodes → edges.Perm source.edges →
    source.BuiltInto strategy selection (fromSource ⟨nodes, edges⟩ strategy selection)

variable {source strategy selection}

theorem isSome_position_iff {id : E} : (position source id).isSome ↔ source.Lists id := by
  have := IndexMap.contains_ofList_iff (l := source.nodes) (k := id)
  rw [IndexMap.contains] at this
  rw [position, this, List.mem_map]
  constructor
  · rintro ⟨⟨id', pos⟩, hmem, rfl⟩
    exact ⟨pos, hmem⟩
  · rintro ⟨pos, hmem⟩
    exact ⟨_, hmem, rfl⟩

theorem mem_of_position {id : E} {pos : Point} (h : position source id = some pos) :
    (id, pos) ∈ source.nodes := IndexMap.mem_of_get?_ofList h

/-- Where every node that belongs has one position, admitted means listed where it is. -/
theorem admits_iff (hone : ∀ n, source.NodeBelongs strategy selection n →
    ∀ pos, (n.id, pos) ∈ source.nodes → pos = n.position) (id : E) :
    Admits source strategy selection id ↔ source.ListsAdmitted strategy selection id := by
  constructor
  · rintro ⟨pos, hpos, hadmits⟩
    exact ⟨pos, mem_of_position hpos, hadmits⟩
  · rintro ⟨pos, hmem, hadmits⟩
    obtain ⟨pos', hpos'⟩ := Option.isSome_iff_exists.mp (isSome_position_iff.mpr ⟨pos, hmem⟩)
    have := hone ⟨id, pos⟩ ⟨hmem, .inl hadmits⟩ pos' (mem_of_position hpos')
    subst this
    exact ⟨pos', hpos', hadmits⟩

/-- In a settled source, what is admitted is listed where it is. -/
theorem Settled.contains_admitted_iff (h : source.Settled strategy selection) (id : E) :
    (admitted source strategy selection).hash.contains id = true ↔
      source.ListsAdmitted strategy selection id :=
  ((inv_admitted source strategy selection).2.1 id).trans (admits_iff h.one_position id)

/-- Along the edges of a settled source only targets of admitted nodes are taken. -/
theorem Settled.contains_scan_iff (h : source.Settled strategy selection) :
    (∀ id, (assemble source strategy selection).hash.contains id = true ↔
      (admitted source strategy selection).hash.contains id = true ∨
        ∃ e ∈ source.edges, (admitted source strategy selection).hash.contains e.1 = true ∧
          e.2.1 = id ∧ (position source id).isSome) ∧
    ∀ a b, (admitted source strategy selection).hash.contains a = false →
      (assemble source strategy selection).graph.edgeWeight a b
        = (admitted source strategy selection).graph.edgeWeight a b := by
  refine Assembly.contains_scan_iff (inv_admitted source strategy selection).1
    fun e he e' he' hs ht hknown hlead => ?_
  refine Option.not_isSome_iff_eq_none.mp fun hknown' => ?_
  refine h.no_chain e he e' he' ((h.contains_admitted_iff e.1).mp hs) (fun hlisted => ?_)
    (isSome_position_iff.mp hknown) hlead (isSome_position_iff.mp hknown')
  rw [(h.contains_admitted_iff e.2.1).mpr hlisted] at ht
  cases ht

/-- What has been taken, and where it lies. -/
theorem Settled.contains_assemble_iff (h : source.Settled strategy selection) (id : E) :
    (assemble source strategy selection).hash.contains id = true ↔
      ∃ n, n.id = id ∧ source.NodeBelongs strategy selection n := by
  rw [h.contains_scan_iff.1, h.contains_admitted_iff]
  constructor
  · rintro (⟨pos, hmem, hpos⟩ | ⟨e, he, hs, rfl, hknown⟩)
    · exact ⟨⟨id, pos⟩, rfl, hmem, .inl hpos⟩
    · obtain ⟨pos, hpos⟩ := Option.isSome_iff_exists.mp hknown
      exact ⟨⟨e.2.1, pos⟩, rfl, mem_of_position hpos,
        .inr ⟨e, he, (h.contains_admitted_iff e.1).mp hs, rfl⟩⟩
  · rintro ⟨n, rfl, hmem, hpos | ⟨e, he, hs, htarget⟩⟩
    · exact .inl ⟨n.position, hmem, hpos⟩
    · exact .inr ⟨e, he, (h.contains_admitted_iff e.1).mpr hs, htarget,
        isSome_position_iff.mpr ⟨_, hmem⟩⟩

/-- A node is taken as it belongs. -/
theorem Settled.get?_assemble_iff (h : source.Settled strategy selection) (n : Node E Point) :
    (assemble source strategy selection).hash.get? n.id = some n ↔
      source.NodeBelongs strategy selection n := by
  have hinv := inv_assemble source strategy selection
  constructor
  · intro hn
    obtain ⟨n', hid, hbelongs⟩ := (h.contains_assemble_iff n.id).mp
      (IndexMap.contains_eq_true_iff.mpr ⟨n, hn⟩)
    have hpos := h.one_position n' hbelongs n.position
      (hid ▸ mem_of_position (hinv.hash_eq n.id n hn).2)
    have hsame : n' = n := Node.ext hid hpos.symm
    exact hsame ▸ hbelongs
  · intro hbelongs
    obtain ⟨n', hn'⟩ := IndexMap.contains_eq_true_iff.mp
      ((h.contains_assemble_iff n.id).mpr ⟨n, rfl, hbelongs⟩)
    obtain ⟨hid, hpos⟩ := hinv.hash_eq n.id n' hn'
    have hpos' := h.one_position n hbelongs n'.position (mem_of_position hpos)
    have hsame : n' = n := Node.ext hid hpos'
    exact hsame ▸ hn'

/-- An edge is taken if its source is admitted and its target known. -/
theorem Settled.edgeWeight_assemble_iff (h : source.Settled strategy selection)
    (hparallel : (source.edges.map fun e => (e.1, e.2.1)).Nodup) (a b : E) (weight : ℕ) :
    (∃ id, (assemble source strategy selection).graph.edgeWeight a b = some (weight, id)) ↔
      source.EdgeBelongs strategy selection a b weight := by
  obtain ⟨hinv, -, hnoedge, -⟩ := inv_admitted source strategy selection
  by_cases ha : (admitted source strategy selection).hash.contains a = true
  · change (∃ id, ((admitted source strategy selection).scan (IndexMap.ofList source.nodes)
      source.edges).graph.edgeWeight a b = some (weight, id)) ↔ _
    simp only [Assembly.edgeWeight_scan hinv hparallel ha (hnoedge a b), Prod.mk.injEq]
    constructor
    · rintro ⟨id, weight', m, hmem, hknown, rfl, rfl⟩
      exact ⟨m, hmem, (h.contains_admitted_iff a).mp ha, isSome_position_iff.mp hknown⟩
    · rintro ⟨m, hmem, -, hlists⟩
      exact ⟨_, weight, m, hmem, isSome_position_iff.mpr hlists, rfl, rfl⟩
  · rw [h.contains_scan_iff.2 a b (Bool.eq_false_iff.mpr ha), hnoedge]
    constructor
    · rintro ⟨id, hid⟩
      cases hid
    · rintro ⟨m, hmem, hlists, -⟩
      exact absurd ((h.contains_admitted_iff a).mpr hlists) ha

/-- **A settled source is built into what belongs.** -/
theorem Settled.builtInto (h : source.Settled strategy selection)
    (hparallel : (source.edges.map fun e => (e.1, e.2.1)).Nodup) :
    source.BuiltInto strategy selection (fromSource source strategy selection) where
  hash_iff := h.get?_assemble_iff
  nodes_iff id :=
    ((inv_assemble source strategy selection).mem_nodes_iff id).trans (h.contains_assemble_iff id)
  edges_iff := h.edgeWeight_assemble_iff hparallel

/-- A list has any of its elements first in some order. -/
theorem exists_perm_cons {α : Type*} {l : List α} {a : α} (h : a ∈ l) :
    ∃ l', (a :: l').Perm l := by
  obtain ⟨s, t, rfl⟩ := List.append_of_mem h
  exact ⟨s ++ t, List.perm_middle.symm⟩

/-- **Building is independent of order** exactly for the settled sources. -/
theorem orderIndependent_iff (hparallel : (source.edges.map fun e => (e.1, e.2.1)).Nodup) :
    source.OrderIndependent strategy selection ↔ source.Settled strategy selection := by
  constructor
  · intro h
    have hone : ∀ n, source.NodeBelongs strategy selection n →
        ∀ pos, (n.id, pos) ∈ source.nodes → pos = n.position := by
      intro n hn pos hmem
      -- hand out the other position last
      obtain ⟨nodes, hnodes⟩ := exists_perm_cons hmem
      have hperm : (nodes ++ [(n.id, pos)]).Perm source.nodes :=
        (List.perm_append_singleton _ _).trans hnodes
      have hget := ((h _ _ hperm (List.Perm.refl _)).hash_iff n).mpr hn
      have hpos := ((inv_assemble ⟨nodes ++ [(n.id, pos)], source.edges⟩ strategy
        selection).hash_eq n.id n hget).2
      rw [IndexMap.get?_ofList, List.reverse_append, List.reverse_singleton,
        List.singleton_append, IndexMap.find, if_pos rfl] at hpos
      exact Option.some.inj hpos
    refine ⟨hone, fun e he e' he' hs ht hlists hlead hlists' => ?_⟩
    -- hand out the two edges first, the one that leads on second
    obtain ⟨edges, hedges⟩ := exists_perm_cons he
    have hmem' : e' ∈ edges := by
      rcases List.mem_cons.mp (hedges.mem_iff.mpr he') with rfl | hmem'
      · exact absurd (hlead ▸ hs) ht
      · exact hmem'
    obtain ⟨rest, hrest⟩ := exists_perm_cons hmem'
    have hperm : (e :: e' :: rest).Perm source.edges := (hrest.cons e).trans hedges
    have hbuilt := h source.nodes (e :: e' :: rest) (List.Perm.refl _) hperm
    obtain ⟨hinv, htaken, -⟩ := inv_admitted (⟨source.nodes, e :: e' :: rest⟩ : ShardSource E M)
      strategy selection
    have hfirst := Assembly.linked_scanEdge hinv e
      ((htaken e.1).mpr ((admits_iff hone e.1).mpr hs)) (isSome_position_iff.mpr hlists)
    have hinv₁ := hinv.scanEdge e
    have hsecond := Assembly.linked_scanEdge hinv₁ e'
      ((hfirst.contains_iff _).mpr (.inl hlead)) (isSome_position_iff.mpr hlists')
    have hkept : ((fromSource (⟨source.nodes, e :: e' :: rest⟩ : ShardSource E M) strategy
        selection).graph.edgeWeight e'.1 e'.2.1).isSome := by
      refine Assembly.edgeWeight_scan_isSome (hinv₁.scanEdge e') rest ?_
      rw [hsecond.edgeWeight_eq, if_pos rfl]
      rfl
    obtain ⟨⟨weight, id⟩, hw⟩ := Option.isSome_iff_exists.mp hkept
    obtain ⟨m, -, hlisted, -⟩ := (hbuilt.edges_iff e'.1 e'.2.1 weight).mp ⟨id, hw⟩
    exact ht (hlead ▸ hlisted)
  · intro h nodes edges hnodes hedges
    have hbuilt := (h.perm (T := ⟨nodes, edges⟩) hnodes hedges).builtInto
      ((hedges.map _).nodup_iff.mpr hparallel)
    exact ⟨fun n => (hbuilt.hash_iff n).trans (nodeBelongs_perm hnodes hedges n),
      fun id => (hbuilt.nodes_iff id).trans
        (exists_congr fun n => and_congr_right fun _ => nodeBelongs_perm hnodes hedges n),
      fun a b weight => (hbuilt.edges_iff a b weight).trans
        (edgeBelongs_perm hnodes hedges a b weight)⟩

/-- A road of two edges, out of the western cell and on through the eastern one. -/
def eastward : ShardSource ℕ Unit where
  nodes := [(1, ⟨-1, 0⟩), (2, ⟨1, 0⟩), (3, ⟨2, 0⟩)]
  edges := [(1, 2, 10, ()), (2, 3, 10, ())]

/-- Two cells, east and west. -/
def hemispheres : ShardingStrategy Bool where
  locate point := decide (0 ≤ point.x)
  bounds east := if east then ⟨⟨0, -90⟩, ⟨180, 90⟩⟩ else ⟨⟨-180, -90⟩, ⟨0, 90⟩⟩
  neighbours east := [!east]

theorem orderIndependent_iff_eastward :
    eastward.OrderIndependent hemispheres ⟨false, [false], none⟩ ↔
      eastward.Settled hemispheres ⟨false, [false], none⟩ :=
  orderIndependent_iff (by decide)

/-- In its own order, the second edge is kept, though its source is in the east. -/
theorem eastward_not_orderIndependent :
    ¬ eastward.OrderIndependent hemispheres ⟨false, [false], none⟩ := by
  intro h
  obtain ⟨m, -, ⟨pos, hmem, hadmits⟩, -⟩ := ((h _ _ (List.Perm.refl _) (List.Perm.refl _)).edges_iff
    2 3 10).mp ⟨⟨2, .outgoing⟩, by decide +kernel⟩
  have hpos : pos = ⟨1, 0⟩ := by simpa [eastward] using hmem
  subst hpos
  revert hadmits
  decide +kernel

end ShardSource

end Routers
