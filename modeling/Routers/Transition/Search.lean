import Routers.Transition.Dijkstra

/-!
# What the bounded search yields

Whatever the cost does along a path, the search keeps an index map whose labels are
costs of walks from the root, and a heap with a label for every node that is not
settled.  So it settles each node the root is joined to, each once, and every item but
the root's names an item yielded before it as its parent.

## Main definitions

* `Walk` — the costs of the walks from a root.
* `DijkstraReachable.Inv` — the invariant of the search.
* `DijkstraReachable.Run` — the rounds of a search.

## Main results

* `DijkstraReachable.Inv.next` — one round keeps the invariant and settles a new node.
* `Dijkstra.mem_items_iff` — **the search settles exactly the nodes joined to the root.**
* `Dijkstra.items_takeWhile` — a search that stops early yields a prefix.
* `Dijkstra.items_stateful` — successors with a state yield what their values say.

## References

`src/libs/routers_transition/src/primitives/algorithms/dijkstra.rs`.
-/

namespace Routers

theorem getElem?_mono {α : Type*} {l l' : List α} (h : l <+: l') {i : ℕ} {a : α}
    (ha : l[i]? = some a) : l'[i]? = some a := by
  obtain ⟨r, rfl⟩ := h
  rw [List.getElem?_append_left (List.getElem?_eq_some_iff.mp ha).1]
  exact ha

section Search

variable {E : Type}

/-- The walks from `root`, with the cost the search accumulates along them. -/
inductive Walk (successors : E → List (E × WeightAndDistance)) (root : E) :
    E → WeightAndDistance → Prop
  | nil : Walk successors root root WeightAndDistance.zero
  | snoc {u v c m} : Walk successors root u c → (v, m) ∈ successors u →
      Walk successors root v (c.add m)

/-- A walk ends at its root or at a successor. -/
theorem Walk.ends {successors : E → List (E × WeightAndDistance)} {root v : E}
    {c : WeightAndDistance} (h : Walk successors root v c) :
    v = root ∨ ∃ u m, (v, m) ∈ successors u := by
  cases h with
  | nil => exact Or.inl rfl
  | snoc _ hm => exact Or.inr ⟨_, _, hm⟩

variable [DecidableEq E] {heap : Heap}

namespace DijkstraReachable

/-- Successors that carry no state. -/
def stateless (successors : E → List (E × WeightAndDistance)) :
    E → Unit → List (E × WeightAndDistance) × Unit :=
  fun node _ => (successors node, ())

/-- The nodes met so far, by index. -/
def nodes (s : DijkstraReachable E heap) : List E := s.parents.map Prod.fst

/-- `v` has been settled. -/
def Settled (s : DijkstraReachable E heap) (v : E) : Prop := ∃ i ∈ s.seen, s.nodes[i]? = some v

/-- The invariant of the search, but for the nodes about to be labelled. -/
structure Inv (successors : E → List (E × WeightAndDistance)) (root : E)
    (s : DijkstraReachable E heap) : Prop where
  nodup : s.nodes.Nodup
  root_index : s.nodes[0]? = some root
  seen_nodup : s.seen.Nodup
  seen_lt : ∀ i ∈ s.seen, i < s.nodes.length
  label : ∀ h ∈ heap.items s.toSee, ∃ v, s.nodes[h.index]? = some v ∧ Walk successors root v h.cost
  queued : ∀ i < s.nodes.length, i ∉ s.seen → ∃ h ∈ heap.items s.toSee, h.index = i
  entry : ∀ x ∈ s.parents, Walk successors root x.1 x.2.2
  orphan : ∀ x ∈ s.parents, x.2.1 = none → x.1 = root
  parent : ∀ x ∈ s.parents, ∀ p, x.2.1 = some p →
    p ∈ s.seen ∧ ∃ u m, s.nodes[p]? = some u ∧ (x.1, m) ∈ successors u

/-- Every successor of a settled node has been met. -/
def Closed (successors : E → List (E × WeightAndDistance)) (s : DijkstraReachable E heap) : Prop :=
  ∀ v, s.Settled v → ∀ w ∈ successors v, w.1 ∈ s.nodes

omit [DecidableEq E] in
theorem getElem?_nodes {s : DijkstraReachable E heap} {i : ℕ} {x : E × Option ℕ × WeightAndDistance}
    (h : s.parents[i]? = some x) : s.nodes[i]? = some x.1 := by
  rw [nodes, List.getElem?_map, h]
  rfl

/-! ### Labelling a successor -/

theorem indexOf_none {s : DijkstraReachable E heap} {v : E} (h : s.indexOf v = none) :
    v ∉ s.nodes := by
  rw [indexOf, List.findIdx?_eq_none_iff] at h
  intro hv
  obtain ⟨x, hx, rfl⟩ := List.mem_map.mp hv
  have := h x hx
  simp at this

theorem indexOf_some {s : DijkstraReachable E heap} {v : E} {n : ℕ} (h : s.indexOf v = some n) :
    ∃ e, s.parents[n]? = some (v, e) := by
  rw [indexOf, List.findIdx?_eq_some_iff_getElem] at h
  obtain ⟨hn, hv, -⟩ := h
  refine ⟨(s.parents[n]).2, ?_⟩
  rw [List.getElem?_eq_getElem hn]
  have : (s.parents[n]).1 = v := by simpa using hv
  rw [← this]

/-- What offering a node to a successor does. -/
theorem relax_cases (s : DijkstraReachable E heap) (index : ℕ) (cost : WeightAndDistance) (v : E)
    (m : WeightAndDistance) :
    (v ∉ s.nodes ∧ relax index cost s (v, m) =
      { s with
        parents := s.parents ++ [(v, some index, cost.add m)]
        toSee := heap.push s.toSee ⟨cost.add m, s.parents.length⟩ }) ∨
    ∃ n e, s.parents[n]? = some (v, e) ∧
      ((e.2.repr ≤ (cost.add m).repr ∧ relax index cost s (v, m) = s) ∨
        (cost.add m).repr < e.2.repr ∧ relax index cost s (v, m) =
          { s with
            parents := s.parents.set n (v, some index, cost.add m)
            toSee := heap.push s.toSee ⟨cost.add m, n⟩ }) := by
  unfold relax
  simp only
  cases hidx : s.indexOf v with
  | none => exact Or.inl ⟨indexOf_none hidx, rfl⟩
  | some n =>
    obtain ⟨e, he⟩ := indexOf_some hidx
    refine Or.inr ⟨n, e, he, ?_⟩
    simp only [he, WeightAndDistance.exceeds, decide_eq_true_eq]
    split_ifs with hdearer
    · exact Or.inr ⟨hdearer, rfl⟩
    · exact Or.inl ⟨not_lt.mp hdearer, rfl⟩

omit [DecidableEq E] in
/-- Replacing the label of a node leaves the nodes as they are. -/
theorem nodes_set {s : DijkstraReachable E heap} {n : ℕ} {v : E} {e e' : Option ℕ × WeightAndDistance}
    (h : s.parents[n]? = some (v, e)) :
    (s.parents.set n (v, e')).map Prod.fst = s.nodes := by
  apply List.ext_getElem?
  intro i
  rw [List.getElem?_map, nodes, List.getElem?_map, List.getElem?_set]
  obtain ⟨hn, hv⟩ := List.getElem?_eq_some_iff.mp h
  by_cases hi : n = i
  · subst hi
    rw [if_pos rfl, if_pos hn, h]
    rfl
  · rw [if_neg hi]

section Relax

variable {successors : E → List (E × WeightAndDistance)} {root : E} {s : DijkstraReachable E heap}

omit [DecidableEq E] in
/-- A successor of a settled node that is new is put at the end of the index map. -/
theorem Inv.push (hinv : s.Inv successors root) {index : ℕ} {u : E} (hseen : index ∈ s.seen)
    (hu : s.nodes[index]? = some u) {v : E} {m c : WeightAndDistance} (hv : (v, m) ∈ successors u)
    (hwalk : Walk successors root v c) (hfresh : v ∉ s.nodes) :
    ({ s with
      parents := s.parents ++ [(v, some index, c)]
      toSee := heap.push s.toSee ⟨c, s.parents.length⟩ } : DijkstraReachable E heap).Inv
        successors root := by
  have hnodes : nodes { s with
      parents := s.parents ++ [(v, some index, c)]
      toSee := heap.push s.toSee ⟨c, s.parents.length⟩ } = s.nodes ++ [v] := by
    simp [nodes]
  have hlen : s.nodes.length = s.parents.length := by simp [nodes]
  have hkeep : ∀ {i : ℕ} {w : E}, s.nodes[i]? = some w → (s.nodes ++ [v])[i]? = some w := by
    intro i w hw
    have := (List.getElem?_eq_some_iff.mp hw).1
    rwa [List.getElem?_append_left this]
  exact
    { nodup := by
        rw [hnodes, List.nodup_append]
        refine ⟨hinv.nodup, List.nodup_singleton v, fun a ha b hb => ?_⟩
        rw [List.mem_singleton.mp hb]
        exact fun h => hfresh (h ▸ ha)
      root_index := by rw [hnodes]; exact hkeep hinv.root_index
      seen_nodup := hinv.seen_nodup
      seen_lt := fun i hi => by
        rw [hnodes, List.length_append]
        exact Nat.lt_add_right _ (hinv.seen_lt i hi)
      label := by
        intro h hh
        rw [hnodes]
        rcases (heap.mem_items_push).mp hh with rfl | hh
        · exact ⟨v, by simp [hlen], hwalk⟩
        · obtain ⟨w, hw, hwalk'⟩ := hinv.label h hh
          exact ⟨w, hkeep hw, hwalk'⟩
      queued := by
        intro i hi hni
        rw [hnodes, List.length_append, List.length_singleton] at hi
        rcases Nat.lt_or_ge i s.nodes.length with hlt | hge
        · obtain ⟨h, hh, rfl⟩ := hinv.queued i hlt hni
          exact ⟨h, heap.mem_items_push.mpr (Or.inr hh), rfl⟩
        · exact ⟨_, heap.mem_items_push.mpr (Or.inl rfl), by simp only; omega⟩
      entry := by
        intro x hx
        rcases List.mem_append.mp hx with hx | hx
        · exact hinv.entry x hx
        · rw [List.mem_singleton.mp hx]
          exact hwalk
      orphan := by
        intro x hx hnone
        rcases List.mem_append.mp hx with hx | hx
        · exact hinv.orphan x hx hnone
        · rw [List.mem_singleton.mp hx] at hnone
          cases hnone
      parent := by
        intro x hx p hp
        rw [hnodes]
        rcases List.mem_append.mp hx with hx | hx
        · obtain ⟨hps, w, m', hw, hm'⟩ := hinv.parent x hx p hp
          exact ⟨hps, w, m', hkeep hw, hm'⟩
        · rw [List.mem_singleton.mp hx] at hp ⊢
          cases hp
          exact ⟨hseen, u, m, hkeep hu, hv⟩ }

omit [DecidableEq E] in
/-- The label of a successor of a settled node is replaced. -/
theorem Inv.replace (hinv : s.Inv successors root) {index : ℕ} {u : E} (hseen : index ∈ s.seen)
    (hu : s.nodes[index]? = some u) {v : E} {m c : WeightAndDistance} (hv : (v, m) ∈ successors u)
    (hwalk : Walk successors root v c) {n : ℕ} {e : Option ℕ × WeightAndDistance}
    (he : s.parents[n]? = some (v, e)) :
    ({ s with
      parents := s.parents.set n (v, some index, c)
      toSee := heap.push s.toSee ⟨c, n⟩ } : DijkstraReachable E heap).Inv successors root := by
  have hnodes : nodes { s with
      parents := s.parents.set n (v, some index, c)
      toSee := heap.push s.toSee ⟨c, n⟩ } = s.nodes := nodes_set he
  have hn : s.nodes[n]? = some v := getElem?_nodes he
  exact
    { nodup := by rw [hnodes]; exact hinv.nodup
      root_index := by rw [hnodes]; exact hinv.root_index
      seen_nodup := hinv.seen_nodup
      seen_lt := by rw [hnodes]; exact hinv.seen_lt
      label := by
        intro h hh
        rw [hnodes]
        rcases (heap.mem_items_push).mp hh with rfl | hh
        · exact ⟨v, hn, hwalk⟩
        · exact hinv.label h hh
      queued := by
        intro i hi hni
        rw [hnodes] at hi
        obtain ⟨h, hh, rfl⟩ := hinv.queued i hi hni
        exact ⟨h, heap.mem_items_push.mpr (Or.inr hh), rfl⟩
      entry := by
        intro x hx
        rcases List.mem_or_eq_of_mem_set hx with hx | rfl
        · exact hinv.entry x hx
        · exact hwalk
      orphan := by
        intro x hx hnone
        rcases List.mem_or_eq_of_mem_set hx with hx | rfl
        · exact hinv.orphan x hx hnone
        · cases hnone
      parent := by
        intro x hx p hp
        rw [hnodes]
        rcases List.mem_or_eq_of_mem_set hx with hx | rfl
        · exact hinv.parent x hx p hp
        · cases hp
          exact ⟨hseen, u, m, hu, hv⟩ }

/-- Labelling a successor of a settled node keeps the invariant, the settled nodes and
the indices there were. -/
theorem Inv.relax (hinv : s.Inv successors root) {index : ℕ} {u : E} {cost : WeightAndDistance}
    (hseen : index ∈ s.seen) (hu : s.nodes[index]? = some u) (hwalk : Walk successors root u cost)
    {v : E} {m : WeightAndDistance} (hv : (v, m) ∈ successors u) :
    (DijkstraReachable.relax index cost s (v, m)).Inv successors root ∧
      (DijkstraReachable.relax index cost s (v, m)).seen = s.seen ∧
      s.nodes <+: (DijkstraReachable.relax index cost s (v, m)).nodes ∧
      v ∈ (DijkstraReachable.relax index cost s (v, m)).nodes := by
  have hnew : Walk successors root v (cost.add m) := hwalk.snoc hv
  rcases s.relax_cases index cost v m with ⟨hfresh, heq⟩ | ⟨n, e, he, ⟨-, heq⟩ | ⟨-, heq⟩⟩
  · -- a new node, at the end of the index map
    rw [heq]
    exact ⟨hinv.push hseen hu hv hnew hfresh, rfl, by simp [nodes], by simp [nodes]⟩
  · -- the label there is no dearer
    rw [heq]
    exact ⟨hinv, rfl, List.prefix_refl _, List.mem_map.mpr ⟨_, List.mem_of_getElem? he, rfl⟩⟩
  · -- a dearer label is replaced
    rw [heq]
    have hnodes : nodes { s with
        parents := s.parents.set n (v, some index, cost.add m)
        toSee := heap.push s.toSee ⟨cost.add m, n⟩ } = s.nodes := nodes_set he
    refine ⟨hinv.replace hseen hu hv hnew he, rfl, by rw [hnodes], ?_⟩
    rw [hnodes]
    exact List.mem_map.mpr ⟨_, List.mem_of_getElem? he, rfl⟩

/-- Labelling successors one after another. -/
theorem Inv.foldl_relax {index : ℕ} {u : E} {cost : WeightAndDistance}
    (hwalk : Walk successors root u cost) :
    ∀ (ws : List (E × WeightAndDistance)) {s : DijkstraReachable E heap},
      (∀ w ∈ ws, w ∈ successors u) → s.Inv successors root → index ∈ s.seen →
      s.nodes[index]? = some u →
      (ws.foldl (DijkstraReachable.relax index cost) s).Inv successors root ∧
        (ws.foldl (DijkstraReachable.relax index cost) s).seen = s.seen ∧
        s.nodes <+: (ws.foldl (DijkstraReachable.relax index cost) s).nodes ∧
        ∀ w ∈ ws, w.1 ∈ (ws.foldl (DijkstraReachable.relax index cost) s).nodes := by
  intro ws
  induction ws with
  | nil => intro s _ hinv _ _; exact ⟨hinv, rfl, List.prefix_refl _, fun w hw => by cases hw⟩
  | cons w ws ih =>
    intro s hws hinv hseen hu
    obtain ⟨v, m⟩ := w
    obtain ⟨hinv', hseen', hprefix, hmem⟩ :=
      hinv.relax hseen hu hwalk (hws (v, m) List.mem_cons_self)
    have hu' : (DijkstraReachable.relax index cost s (v, m)).nodes[index]? = some u :=
      getElem?_mono hprefix hu
    obtain ⟨hinv'', hseen'', hprefix', hmem'⟩ :=
      ih (fun w hw => hws w (List.mem_cons_of_mem _ hw)) hinv' (hseen'.symm ▸ hseen) hu'
    rw [List.foldl_cons]
    refine ⟨hinv'', hseen''.trans hseen', hprefix.trans hprefix', fun w hw => ?_⟩
    rcases List.mem_cons.mp hw with rfl | hw
    · exact hprefix'.subset hmem
    · exact hmem' w hw

end Relax

/-! ### One round -/

section Round

variable {successors : E → List (E × WeightAndDistance)} {root : E} {s : DijkstraReachable E heap}

omit [DecidableEq E] in
/-- A popped label whose node is settled can be dropped. -/
theorem Inv.drop (hinv : s.Inv successors root) {holder : SmallestHolder} {toSee : heap.Carrier}
    (hpop : heap.pop s.toSee = some (holder, toSee)) (hseen : holder.index ∈ s.seen) :
    Inv successors root { s with toSee := toSee } :=
  { hinv with
    label := fun h hh =>
      hinv.label h ((PriorityQueue.mem_items_pop hpop).mpr (Or.inr hh))
    queued := by
      intro i hi hni
      obtain ⟨h, hh, rfl⟩ := hinv.queued i hi hni
      rcases (PriorityQueue.mem_items_pop hpop).mp hh with rfl | hh
      · exact absurd hseen hni
      · exact ⟨h, hh, rfl⟩ }

omit [DecidableEq E] in
/-- A popped label settles its node. -/
theorem Inv.mark (hinv : s.Inv successors root) {holder : SmallestHolder} {toSee : heap.Carrier}
    (hpop : heap.pop s.toSee = some (holder, toSee)) (hseen : holder.index ∉ s.seen) :
    Inv successors root { s with toSee := toSee, seen := holder.index :: s.seen } :=
  { hinv with
    seen_nodup := List.nodup_cons.mpr ⟨hseen, hinv.seen_nodup⟩
    seen_lt := by
      intro i hi
      rcases List.mem_cons.mp hi with rfl | hi
      · obtain ⟨v, hv, -⟩ :=
          hinv.label holder ((PriorityQueue.mem_items_pop hpop).mpr (Or.inl rfl))
        exact (List.getElem?_eq_some_iff.mp hv).1
      · exact hinv.seen_lt i hi
    label := fun h hh =>
      hinv.label h ((PriorityQueue.mem_items_pop hpop).mpr (Or.inr hh))
    queued := by
      intro i hi hni
      rw [List.mem_cons, not_or] at hni
      obtain ⟨h, hh, rfl⟩ := hinv.queued i hi hni.2
      rcases (PriorityQueue.mem_items_pop hpop).mp hh with rfl | hh
      · exact absurd rfl hni.1
      · exact ⟨h, hh, rfl⟩
    parent := fun x hx p hp =>
      ⟨List.mem_cons_of_mem _ (hinv.parent x hx p hp).1, (hinv.parent x hx p hp).2⟩ }

/-- What a round that settles a node did: which node, and what it left. -/
structure Settles (successors : E → List (E × WeightAndDistance)) (root : E)
    (s s' : DijkstraReachable E heap) (item : DijkstraReachableItem E) : Prop where
  inv : s'.Inv successors root
  closed : s.Closed successors → s'.Closed successors
  settled : ∀ v, s'.Settled v ↔ v = item.node ∨ s.Settled v
  fresh : ¬ s.Settled item.node
  length_seen : s'.seen.length = s.seen.length + 1
  walk : Walk successors root item.node item.totalCost
  orphan : item.parent = none → item.node = root
  parent : ∀ u, item.parent = some u → s.Settled u ∧ ∃ m, (item.node, m) ∈ successors u

omit [DecidableEq E] in
/-- The parent of an item is settled, and an item without one is the root. -/
theorem Inv.parent_item (hinv : s.Inv successors root) {x : E × Option ℕ × WeightAndDistance}
    (hx : x ∈ s.parents) :
    ((item s x).parent = none → x.1 = root) ∧
      ∀ u, (item s x).parent = some u → s.Settled u ∧ ∃ m, (x.1, m) ∈ successors u := by
  cases hp : x.2.1 with
  | none => exact ⟨fun _ => hinv.orphan x hx hp, fun u hu => by simp [item, hp] at hu⟩
  | some p =>
    obtain ⟨hps, u', m, hu', hm⟩ := hinv.parent x hx p hp
    have hparent : (item s x).parent = some u' := by
      rw [nodes, List.getElem?_map] at hu'
      simp only [item, hp, Option.bind_some]
      exact hu'
    rw [hparent]
    refine ⟨by simp, fun u hu => ?_⟩
    cases hu
    exact ⟨⟨p, hps, hu'⟩, m, hm⟩

omit [DecidableEq E] in
/-- Settling a node that was popped adds it to the settled nodes. -/
theorem settled_of_grown {s s' : DijkstraReachable E heap} {index : ℕ} {v : E}
    (hnode : s.nodes[index]? = some v) (hlt : ∀ i ∈ s.seen, i < s.nodes.length)
    (hseen : s'.seen = index :: s.seen) (hgrown : s.nodes <+: s'.nodes) (w : E) :
    s'.Settled w ↔ w = v ∨ s.Settled w := by
  constructor
  · rintro ⟨i, hi, hiw⟩
    rw [hseen] at hi
    rcases List.mem_cons.mp hi with rfl | hi
    · exact Or.inl (Option.some.inj (hiw.symm.trans (getElem?_mono hgrown hnode)))
    · obtain ⟨u, hu⟩ : ∃ u, s.nodes[i]? = some u := ⟨_, List.getElem?_eq_getElem (hlt i hi)⟩
      have hsame := hiw.symm.trans (getElem?_mono hgrown hu)
      exact Or.inr ⟨i, hi, hu.trans hsame.symm⟩
  · rintro (rfl | ⟨i, hi, hiw⟩)
    · exact ⟨index, hseen ▸ List.mem_cons_self, getElem?_mono hgrown hnode⟩
    · exact ⟨i, hseen ▸ List.mem_cons_of_mem index hi, getElem?_mono hgrown hiw⟩

/-- Settling the node of a label that was popped. -/
theorem Inv.settle (hinv : s.Inv successors root) {holder : SmallestHolder} {toSee : heap.Carrier}
    (hpop : heap.pop s.toSee = some (holder, toSee)) (hseen : holder.index ∉ s.seen)
    {x : E × Option ℕ × WeightAndDistance} (hx : s.parents[holder.index]? = some x) :
    Settles successors root s
      (DijkstraReachable.settle { s with toSee := toSee } holder (successors x.1))
      (item { s with toSee := toSee } x) := by
  have hnode := getElem?_nodes hx
  have hmem : x ∈ s.parents := List.mem_of_getElem? hx
  obtain ⟨v, hv, hwalk⟩ := hinv.label holder ((PriorityQueue.mem_items_pop hpop).mpr (Or.inl rfl))
  obtain rfl : x.1 = v := Option.some.inj (hnode.symm.trans hv)
  obtain ⟨hinv', hseen', hprefix, hnew⟩ := Inv.foldl_relax hwalk (successors x.1)
    (fun w hw => hw) (hinv.mark hpop hseen) List.mem_cons_self hnode
  have hsettled := settled_of_grown hnode hinv.seen_lt hseen' hprefix
  exact
    { inv := hinv'
      closed := by
        intro hclosed v hv w hw
        rcases (hsettled v).mp hv with rfl | hv
        · exact hnew w hw
        · exact hprefix.subset (hclosed v hv w hw)
      settled := hsettled
      fresh := by
        rintro ⟨i, hi, hiv⟩
        have heq : i = holder.index := by
          apply (List.getElem?_inj (hinv.seen_lt i hi) hinv.nodup).mp
          rw [hnode]
          exact hiv
        exact hseen (heq ▸ hi)
      length_seen := by
        show List.length _ = _
        rw [DijkstraReachable.settle, hseen']
        rfl
      walk := hinv.entry x hmem
      orphan := (hinv.parent_item hmem).1
      parent := (hinv.parent_item hmem).2 }

/-- The rounds of `next` pass over settled nodes and then settle one, or find that
every node met is settled. -/
theorem Inv.nextLoop : ∀ {fuel : ℕ} {s : DijkstraReachable E heap}, s.Inv successors root →
    (heap.items s.toSee).length ≤ fuel →
    (nextLoop (stateless successors) fuel s () = none → ∀ i < s.nodes.length, i ∈ s.seen) ∧
    ∀ item s', nextLoop (stateless successors) fuel s () = some (item, s', ()) →
      Settles successors root s s' item := by
  intro fuel
  induction fuel with
  | zero =>
    intro s hinv hfuel
    refine ⟨fun _ i hi => ?_, fun item s' h => by cases h⟩
    by_contra hni
    obtain ⟨h, hh, -⟩ := hinv.queued i hi hni
    have := List.length_pos_of_mem hh
    omega
  | succ fuel ih =>
    intro s hinv hfuel
    unfold DijkstraReachable.nextLoop
    cases hpop : heap.pop s.toSee with
    | none =>
      refine ⟨fun _ i hi => ?_, fun item s' h => by cases h⟩
      by_contra hni
      obtain ⟨h, hh, -⟩ := hinv.queued i hi hni
      rw [heap.pop_none _ hpop] at hh
      cases hh
    | some popped =>
      obtain ⟨holder, toSee⟩ := popped
      simp only
      have hlen := PriorityQueue.length_items_pop hpop
      by_cases hseen : holder.index ∈ s.seen
      · rw [if_pos hseen]
        obtain ⟨hnone, hsome⟩ := ih (hinv.drop hpop hseen) (by simp only; omega)
        exact ⟨hnone, fun item s' h => { hsome item s' h with }⟩
      · rw [if_neg hseen]
        obtain ⟨v, hv, -⟩ := hinv.label holder ((PriorityQueue.mem_items_pop hpop).mpr (Or.inl rfl))
        cases hx : s.parents[holder.index]? with
        | none =>
          rw [nodes, List.getElem?_map, hx] at hv
          cases hv
        | some x =>
          refine ⟨fun h => (by cases h), fun item s' h => ?_⟩
          cases h
          exact hinv.settle hpop hseen hx

/-- **One round keeps the invariant and settles a new node.** -/
theorem Inv.next (hinv : s.Inv successors root) :
    (s.next (stateless successors) () = none → ∀ i < s.nodes.length, i ∈ s.seen) ∧
    ∀ item s', s.next (stateless successors) () = some (item, s', ()) →
      Settles successors root s s' item :=
  hinv.nextLoop le_rfl

end Round

/-! ### The rounds of a search -/

/-- The items of a search that goes on from `s` until it is in state `s'`. -/
inductive Run (successors : E → List (E × WeightAndDistance)) :
    DijkstraReachable E heap → List (DijkstraReachableItem E) → DijkstraReachable E heap → Prop
  | done {s} : Run successors s [] s
  | step {s s₁ s' item rest} : s.next (stateless successors) () = some (item, s₁, ()) →
      Run successors s₁ rest s' → Run successors s (item :: rest) s'

section Run

variable {successors : E → List (E × WeightAndDistance)} {root : E}

theorem Run.inv {s s' : DijkstraReachable E heap} {rest : List (DijkstraReachableItem E)}
    (h : Run successors s rest s') (hinv : s.Inv successors root) : s'.Inv successors root := by
  induction h with
  | done => exact hinv
  | step hnext _ ih => exact ih (hinv.next.2 _ _ hnext).inv

theorem Run.closed {s s' : DijkstraReachable E heap} {rest : List (DijkstraReachableItem E)}
    (h : Run successors s rest s') (hinv : s.Inv successors root) (hclosed : s.Closed successors) :
    s'.Closed successors := by
  induction h with
  | done => exact hclosed
  | step hnext _ ih =>
    have hstep := hinv.next.2 _ _ hnext
    exact ih hstep.inv (hstep.closed hclosed)

/-- What has been settled in the end: what was before, and what was yielded. -/
theorem Run.settled {s s' : DijkstraReachable E heap} {rest : List (DijkstraReachableItem E)}
    (h : Run successors s rest s') (hinv : s.Inv successors root) (v : E) :
    s'.Settled v ↔ s.Settled v ∨ ∃ item ∈ rest, item.node = v := by
  induction h with
  | done => simp
  | @step s s₁ s' item rest hnext _ ih =>
    have hstep := hinv.next.2 _ _ hnext
    rw [ih hstep.inv, hstep.settled]
    simp only [List.mem_cons, exists_eq_or_imp]
    constructor
    · rintro ((rfl | h) | h)
      · exact Or.inr (Or.inl rfl)
      · exact Or.inl h
      · exact Or.inr (Or.inr h)
    · rintro (h | rfl | h)
      · exact Or.inl (Or.inr h)
      · exact Or.inl (Or.inl rfl)
      · exact Or.inr h

theorem Run.length_seen {s s' : DijkstraReachable E heap} {rest : List (DijkstraReachableItem E)}
    (h : Run successors s rest s') (hinv : s.Inv successors root) :
    s'.seen.length = s.seen.length + rest.length := by
  induction h with
  | done => rfl
  | step hnext _ ih =>
    have hstep := hinv.next.2 _ _ hnext
    rw [ih hstep.inv, hstep.length_seen, List.length_cons]
    omega

/-- Each item settles a node that no item before it did, at the cost of a walk, from a
parent settled before. -/
theorem Run.item {s s' : DijkstraReachable E heap} {rest : List (DijkstraReachableItem E)}
    (h : Run successors s rest s') (hinv : s.Inv successors root) :
    (∀ item ∈ rest, ¬ s.Settled item.node) ∧ (rest.map (·.node)).Nodup ∧
    (∀ item ∈ rest, Walk successors root item.node item.totalCost) ∧
    (∀ item ∈ rest, item.parent = none → item.node = root) ∧
    ∀ before item after, rest = before ++ item :: after → ∀ u, item.parent = some u →
      (s.Settled u ∨ ∃ earlier ∈ before, earlier.node = u) ∧ ∃ m, (item.node, m) ∈ successors u := by
  induction h with
  | done => simp
  | @step s s₁ s' item rest hnext _ ih =>
    have hstep := hinv.next.2 _ _ hnext
    obtain ⟨hfresh, hnodup, hwalk, horphan, hparent⟩ := ih hstep.inv
    refine ⟨fun x hx => ?_, ?_, fun x hx => ?_, fun x hx => ?_, fun before x after heq u hu => ?_⟩
    · rcases List.mem_cons.mp hx with rfl | hx
      · exact hstep.fresh
      · exact fun hs => hfresh x hx ((hstep.settled _).mpr (Or.inr hs))
    · rw [List.map_cons, List.nodup_cons]
      refine ⟨fun hmem => ?_, hnodup⟩
      obtain ⟨x, hx, heq⟩ := List.mem_map.mp hmem
      exact hfresh x hx ((hstep.settled _).mpr (Or.inl heq))
    · rcases List.mem_cons.mp hx with rfl | hx
      · exact hstep.walk
      · exact hwalk x hx
    · rcases List.mem_cons.mp hx with rfl | hx
      · exact hstep.orphan
      · exact horphan x hx
    · cases before with
      | nil =>
        cases heq
        obtain ⟨hs, hm⟩ := hstep.parent u hu
        exact ⟨Or.inl hs, hm⟩
      | cons first before =>
        cases heq
        obtain ⟨hs, hm⟩ := hparent before x after rfl u hu
        refine ⟨?_, hm⟩
        rcases hs with hs | ⟨earlier, he, rfl⟩
        · rcases (hstep.settled u).mp hs with rfl | hs
          · exact Or.inr ⟨_, List.mem_cons_self, rfl⟩
          · exact Or.inl hs
        · exact Or.inr ⟨earlier, List.mem_cons_of_mem _ he, rfl⟩

end Run

/-! ### The start -/

omit [DecidableEq E] in
/-- A search that has settled nothing has the root in its heap. -/
theorem mem_items_reach {root : E} {h : SmallestHolder} :
    h ∈ heap.items (Dijkstra.reach heap root).toSee ↔ h = ⟨WeightAndDistance.zero, 0⟩ := by
  rw [Dijkstra.reach, heap.mem_items_push, heap.items_empty]
  simp

omit [DecidableEq E] in
/-- The invariant holds of a search that has settled nothing. -/
theorem inv_reach (successors : E → List (E × WeightAndDistance)) (root : E) :
    (Dijkstra.reach heap root).Inv successors root := by
  exact
    { nodup := by simp [nodes, Dijkstra.reach]
      root_index := rfl
      seen_nodup := List.nodup_nil
      seen_lt := fun i hi => by cases hi
      label := fun h hh => by
        rw [mem_items_reach.mp hh]
        exact ⟨root, rfl, Walk.nil⟩
      queued := by
        intro i hi _
        have hi' : i < 1 := hi
        exact ⟨_, mem_items_reach.mpr rfl, by simp only; omega⟩
      entry := fun x hx => by
        rw [List.mem_singleton.mp hx]
        exact Walk.nil
      orphan := fun x hx _ => by rw [List.mem_singleton.mp hx]
      parent := fun x hx p hp => by
        rw [List.mem_singleton.mp hx] at hp
        cases hp }

omit [DecidableEq E] in
theorem not_settled_reach (root v : E) : ¬ (Dijkstra.reach heap root).Settled v := by
  rintro ⟨i, hi, -⟩
  cases hi

end DijkstraReachable

namespace Dijkstra

open DijkstraReachable

variable {successors : E → List (E × WeightAndDistance)} {root : E}

/-- The items a search yields are the rounds of a run, cut off only by the fuel. -/
theorem exists_run (successors : E → List (E × WeightAndDistance)) : ∀ (fuel : ℕ)
    (s : DijkstraReachable E heap),
    ∃ s', Run successors s (items (stateless successors) (fun _ => true) fuel s ()).1 s' ∧
      ((items (stateless successors) (fun _ => true) fuel s ()).1.length = fuel ∨
        s'.next (stateless successors) () = none) := by
  intro fuel
  induction fuel with
  | zero => intro s; exact ⟨s, Run.done, Or.inl rfl⟩
  | succ fuel ih =>
    intro s
    cases hnext : s.next (stateless successors) () with
    | none =>
      rw [items, hnext]
      exact ⟨s, Run.done, Or.inr hnext⟩
    | some r =>
      obtain ⟨item, s₁, ⟨⟩⟩ := r
      obtain ⟨s', hrun, hend⟩ := ih s₁
      rw [items, hnext]
      simp only [if_true]
      refine ⟨s', Run.step hnext hrun, hend.imp ?_ id⟩
      intro h
      rw [List.length_cons, h]

/-- A search that stops at the first unwanted item yields the wanted prefix. -/
theorem items_takeWhile (wanted : WeightAndDistance → Bool) : ∀ (fuel : ℕ)
    (s : DijkstraReachable E heap),
    (items (stateless successors) wanted fuel s ()).1
      = (items (stateless successors) (fun _ => true) fuel s ()).1.takeWhile
          fun item => wanted item.totalCost := by
  intro fuel
  induction fuel with
  | zero => intro s; rfl
  | succ fuel ih =>
    intro s
    rw [items, items]
    cases s.next (stateless successors) () with
    | none => rfl
    | some r =>
      obtain ⟨item, s₁, ⟨⟩⟩ := r
      by_cases hw : wanted item.totalCost = true
      · simp only [hw, if_true, List.takeWhile_cons]
        rw [ih s₁]
      · simp only [hw, Bool.false_eq_true, if_false, if_true, List.takeWhile_cons]

variable {targets : List E} (htargets : ∀ u, ∀ w ∈ successors u, w.1 ∈ targets)
include htargets

omit [DecidableEq E] in
/-- No more nodes are settled than there are ends of edges, and the root. -/
theorem length_seen_le {s : DijkstraReachable E heap} (hinv : s.Inv successors root) :
    s.seen.length ≤ targets.length + 1 := by
  have hnodes : s.nodes.length ≤ (root :: targets).length := by
    refine (hinv.nodup.subperm fun v hv => ?_).length_le
    obtain ⟨x, hx, rfl⟩ := List.mem_map.mp hv
    rcases (hinv.entry x hx).ends with heq | ⟨u, m, hm⟩
    · rw [heq]
      exact List.mem_cons_self
    · exact List.mem_cons_of_mem _ (htargets u _ hm)
  have hseen : s.seen.length ≤ (List.range s.nodes.length).length :=
    (hinv.seen_nodup.subperm fun i hi => List.mem_range.mpr (hinv.seen_lt i hi)).length_le
  rw [List.length_range] at hseen
  exact hseen.trans hnodes

/-- Given fuel for each node it may meet, a search goes on until nothing is left. -/
theorem exists_run_exhausted (heap : Heap) (root : E) :
    ∃ s : DijkstraReachable E heap, Run successors (reach heap root)
      (items (stateless successors) (fun _ => true) (targets.length + 1) (reach heap root) ()).1 s ∧
        s.next (stateless successors) () = none := by
  have hinv : (reach heap root).Inv successors root := inv_reach successors root
  obtain ⟨s, hrun, hend⟩ := exists_run successors (targets.length + 1) (reach heap root)
  refine ⟨s, hrun, ?_⟩
  rcases hend with hlen | hnone
  · cases hnext : s.next (stateless successors) () with
    | none => rfl
    | some r =>
      -- one more round would settle one node too many
      obtain ⟨item, s', ⟨⟩⟩ := r
      have hstep := (hrun.inv hinv).next.2 item s' hnext
      have hle := length_seen_le htargets hstep.inv
      rw [hstep.length_seen, hrun.length_seen hinv, hlen] at hle
      simp only [reach, List.length_nil] at hle
      omega
  · exact hnone

omit htargets in
/-- What an exhausted search has met it has settled. -/
theorem mem_of_exhausted {s : DijkstraReachable E heap} {rest : List (DijkstraReachableItem E)}
    (hrun : Run successors (reach heap root) rest s)
    (hnone : s.next (stateless successors) () = none) {v : E} (hv : v ∈ s.nodes) :
    ∃ item ∈ rest, item.node = v := by
  have hinv : (reach heap root).Inv successors root := inv_reach successors root
  obtain ⟨i, hi, rfl⟩ := List.getElem_of_mem hv
  have hseen := (hrun.inv hinv).next.1 hnone i hi
  rcases (hrun.settled hinv _).mp ⟨i, hseen, List.getElem?_eq_getElem hi⟩ with h | h
  · exact absurd h (not_settled_reach root _)
  · exact h

omit htargets in
/-- An exhausted search has settled the root, and the ends of the edges from what it has
settled. -/
theorem closed_of_exhausted {s : DijkstraReachable E heap} {rest : List (DijkstraReachableItem E)}
    (hrun : Run successors (reach heap root) rest s)
    (hnone : s.next (stateless successors) () = none) :
    (∃ item ∈ rest, item.node = root) ∧
      ∀ item ∈ rest, ∀ w ∈ successors item.node, ∃ item' ∈ rest, item'.node = w.1 := by
  have hinv : (reach heap root).Inv successors root := inv_reach successors root
  have hclosed : s.Closed successors :=
    hrun.closed hinv fun v hv => absurd hv (not_settled_reach root v)
  constructor
  · exact mem_of_exhausted hrun hnone (List.mem_of_getElem? (hrun.inv hinv).root_index)
  · intro item hitem w hw
    have hsettled : s.Settled item.node := (hrun.settled hinv _).mpr (Or.inr ⟨item, hitem, rfl⟩)
    exact mem_of_exhausted hrun hnone (hclosed _ hsettled w hw)

/-- **The search settles exactly the nodes joined to the root**, given fuel for each
node it may meet. -/
theorem mem_items_iff (heap : Heap) (root : E) (v : E) :
    (∃ item ∈ (items (stateless successors) (fun _ => true) (targets.length + 1)
        (reach heap root) ()).1, item.node = v) ↔ ∃ c, Walk successors root v c := by
  obtain ⟨s, hrun, hnone⟩ := exists_run_exhausted htargets heap root
  obtain ⟨hroot, hnext⟩ := closed_of_exhausted hrun hnone
  constructor
  · rintro ⟨item, hitem, rfl⟩
    exact ⟨_, (hrun.item (inv_reach successors root)).2.2.1 item hitem⟩
  · rintro ⟨c, hwalk⟩
    induction hwalk with
    | nil => exact hroot
    | snoc _ hm ih =>
      obtain ⟨item, hitem, rfl⟩ := ih
      exact hnext item hitem _ hm

end Dijkstra

/-! ### Successors with a state -/

namespace DijkstraReachable

variable {σ : Type} {asked : E → σ → List (E × WeightAndDistance) × σ}
  {successors : E → List (E × WeightAndDistance)} {I : σ → Prop}

/-- A round with successors whose values do not depend on their state. -/
theorem nextLoop_stateful
    (hasked : ∀ node c, I c → (asked node c).1 = successors node ∧ I (asked node c).2) :
    ∀ (fuel : ℕ) (s : DijkstraReachable E heap) (c : σ), I c →
      (nextLoop (stateless successors) fuel s () = none → nextLoop asked fuel s c = none) ∧
      ∀ item s', nextLoop (stateless successors) fuel s () = some (item, s', ()) →
        ∃ c', nextLoop asked fuel s c = some (item, s', c') ∧ I c' := by
  intro fuel
  induction fuel with
  | zero => intro s c _; exact ⟨fun _ => rfl, fun item s' h => by cases h⟩
  | succ fuel ih =>
    intro s c hc
    unfold nextLoop
    cases heap.pop s.toSee with
    | none => exact ⟨fun _ => rfl, fun item s' h => by cases h⟩
    | some popped =>
      obtain ⟨holder, toSee⟩ := popped
      simp only
      by_cases hseen : holder.index ∈ s.seen
      · rw [if_pos hseen, if_pos hseen]
        exact ih _ c hc
      · rw [if_neg hseen, if_neg hseen]
        cases s.parents[holder.index]? with
        | none => exact ⟨fun _ => rfl, fun item s' h => by cases h⟩
        | some x =>
          refine ⟨fun h => (by cases h), fun item s' h => ?_⟩
          cases h
          obtain ⟨hval, hI⟩ := hasked x.1 c hc
          exact ⟨_, by simp only [hval, stateless], hI⟩

end DijkstraReachable

namespace Dijkstra

open DijkstraReachable

variable {σ : Type} {asked : E → σ → List (E × WeightAndDistance) × σ}
  {successors : E → List (E × WeightAndDistance)} {I : σ → Prop}

/-- **Successors with a state yield what their values say**, and keep what each of
them keeps of the state. -/
theorem items_stateful
    (hasked : ∀ node c, I c → (asked node c).1 = successors node ∧ I (asked node c).2)
    (wanted : WeightAndDistance → Bool) : ∀ (fuel : ℕ) (s : DijkstraReachable E heap) (c : σ), I c →
      (items asked wanted fuel s c).1 = (items (stateless successors) wanted fuel s ()).1 ∧
        I (items asked wanted fuel s c).2 := by
  intro fuel
  induction fuel with
  | zero => intro s c hc; exact ⟨rfl, hc⟩
  | succ fuel ih =>
    intro s c hc
    obtain ⟨hnone, hsome⟩ :=
      nextLoop_stateful hasked (heap.items s.toSee).length s c hc
    rw [items, items]
    cases hnext : s.next (stateless successors) () with
    | none =>
      rw [DijkstraReachable.next, hnone hnext]
      exact ⟨rfl, hc⟩
    | some r =>
      obtain ⟨item, s', ⟨⟩⟩ := r
      obtain ⟨c', hc', hI⟩ := hsome item s' hnext
      rw [DijkstraReachable.next, hc']
      obtain ⟨hrest, hI'⟩ := ih s' c' hI
      by_cases hw : wanted item.totalCost = true
      · simp only [hw, if_true]
        exact ⟨by rw [hrest], hI'⟩
      · simp only [hw, Bool.false_eq_true, if_false]
        exact ⟨trivial, hI⟩

end Dijkstra

end Search

end Routers
