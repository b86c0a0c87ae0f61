import Routers.Transition.Search

/-!
# The order of the search

A search makes offers: the root is offered at no cost, and each node settled offers its
successors at its own cost and that of the edge.  The index map keeps the least offer to
each node, the heap the label of every node not yet settled, and stale labels are dearer.
So a search is greedy: it settles a node by an offer made to it, and of all the offers to
nodes not settled none was cheaper.

## Main definitions

* `Dijkstra.offers` — the offers made by settling nodes in order.
* `DijkstraReachable.Best` — index map and heap keep the least offers.

## Main results

* `DijkstraReachable.Inv.best_next` — one round takes the least offer.
* `DijkstraReachable.Run.greedy` — **a search is greedy.**

## References

`src/libs/routers_transition/src/primitives/algorithms/dijkstra.rs`.
-/

namespace Routers

variable {E : Type}

namespace Dijkstra

/-- The offers the items of a search have made. -/
def made (successors : E → List (E × WeightAndDistance)) (items : List (DijkstraReachableItem E)) :
    List (E × WeightAndDistance) :=
  items.flatMap fun item => (successors item.node).map fun w => (w.1, item.totalCost.add w.2)

/-- The offers made once `items` are settled, that to the root included. -/
def offers (successors : E → List (E × WeightAndDistance)) (root : E)
    (items : List (DijkstraReachableItem E)) : List (E × WeightAndDistance) :=
  (root, WeightAndDistance.zero) :: made successors items

theorem mem_made {successors : E → List (E × WeightAndDistance)}
    {items : List (DijkstraReachableItem E)} {o : E × WeightAndDistance} :
    o ∈ made successors items ↔ ∃ item ∈ items, ∃ m, (o.1, m) ∈ successors item.node ∧
      o.2 = item.totalCost.add m := by
  obtain ⟨v, c⟩ := o
  simp only [made, List.mem_flatMap, List.mem_map, Prod.mk.injEq]
  constructor
  · rintro ⟨item, hitem, ⟨w, m⟩, hw, rfl, rfl⟩
    exact ⟨item, hitem, m, hw, rfl⟩
  · rintro ⟨item, hitem, m, hm, rfl⟩
    exact ⟨item, hitem, (v, m), hm, rfl, rfl⟩

end Dijkstra

variable [DecidableEq E] {heap : Heap}

namespace DijkstraReachable

open Dijkstra (made offers)

/-- The index map holds the least offer to each node, the heap the label of each node not
settled, and whatever else is in the heap is dearer. -/
structure Best (offered : List (E × WeightAndDistance)) (s : DijkstraReachable E heap) : Prop where
  mem : ∀ x ∈ s.parents, (x.1, x.2.2) ∈ offered
  least : ∀ o ∈ offered, ∃ x ∈ s.parents, x.1 = o.1 ∧ x.2.2.repr ≤ o.2.repr
  queued : ∀ (i : ℕ) x, s.parents[i]? = some x → i ∉ s.seen →
    (⟨x.2.2, i⟩ : SmallestHolder) ∈ heap.items s.toSee
  stale : ∀ h ∈ heap.items s.toSee, ∀ x, s.parents[h.index]? = some x →
    h.cost = x.2.2 ∨ x.2.2.repr < h.cost.repr

variable {successors : E → List (E × WeightAndDistance)} {root : E} {s : DijkstraReachable E heap}
  {offered : List (E × WeightAndDistance)}

omit [DecidableEq E] in
/-- The first offer to a node is its label. -/
theorem Best.push (hindex : ∀ h ∈ heap.items s.toSee, h.index < s.parents.length)
    (hbest : s.Best offered) (v : E) (parent : Option ℕ) (c : WeightAndDistance) :
    ({ s with
      parents := s.parents ++ [(v, parent, c)]
      toSee := heap.push s.toSee ⟨c, s.parents.length⟩ } : DijkstraReachable E heap).Best
        (offered ++ [(v, c)]) := by
  refine ⟨fun x hx => ?_, fun o ho => ?_, fun i x hx hi => ?_, fun h hh x hx => ?_⟩
  · rcases List.mem_append.mp hx with hx | hx
    · exact List.mem_append_left _ (hbest.mem x hx)
    · rw [List.mem_singleton.mp hx]
      exact List.mem_append_right _ (List.mem_singleton.mpr rfl)
  · rcases List.mem_append.mp ho with ho | ho
    · obtain ⟨x, hx, hnode, hrepr⟩ := hbest.least o ho
      exact ⟨x, List.mem_append_left _ hx, hnode, hrepr⟩
    · rw [List.mem_singleton.mp ho]
      exact ⟨_, List.mem_append_right _ (List.mem_singleton.mpr rfl), rfl, le_rfl⟩
  · simp only [List.getElem?_append] at hx
    split_ifs at hx with hlt
    · exact heap.mem_items_push.mpr (Or.inr (hbest.queued i x hx hi))
    · rw [List.getElem?_singleton] at hx
      split_ifs at hx with hzero
      cases hx
      obtain rfl : i = s.parents.length := by omega
      exact heap.mem_items_push.mpr (Or.inl rfl)
  · rcases heap.mem_items_push.mp hh with rfl | hh
    · rw [List.getElem?_concat_length] at hx
      cases hx
      exact Or.inl rfl
    · rw [List.getElem?_append_left (hindex h hh)] at hx
      exact hbest.stale h hh x hx

omit [DecidableEq E] in
/-- A cheaper offer replaces the label. -/
theorem Best.replace (hbest : s.Best offered) {n : ℕ} {v : E} {e : Option ℕ × WeightAndDistance}
    (he : s.parents[n]? = some (v, e)) (parent : Option ℕ) {c : WeightAndDistance}
    (hlt : c.repr < e.2.repr) :
    ({ s with
      parents := s.parents.set n (v, parent, c)
      toSee := heap.push s.toSee ⟨c, n⟩ } : DijkstraReachable E heap).Best
        (offered ++ [(v, c)]) := by
  have hn := (List.getElem?_eq_some_iff.mp he).1
  refine ⟨fun x hx => ?_, fun o ho => ?_, fun i x hx hi => ?_, fun h hh x hx => ?_⟩
  · rcases List.mem_or_eq_of_mem_set hx with hx | rfl
    · exact List.mem_append_left _ (hbest.mem x hx)
    · exact List.mem_append_right _ (List.mem_singleton.mpr rfl)
  · have hnew : (v, parent, c) ∈ s.parents.set n (v, parent, c) := List.mem_set hn _
    rcases List.mem_append.mp ho with ho | ho
    · obtain ⟨x, hx, hnode, hrepr⟩ := hbest.least o ho
      obtain ⟨j, hj⟩ := List.getElem?_of_mem hx
      by_cases hjn : n = j
      · subst hjn
        rw [he] at hj
        cases hj
        exact ⟨_, hnew, hnode, hlt.le.trans hrepr⟩
      · refine ⟨x, List.mem_of_getElem? (i := j) ?_, hnode, hrepr⟩
        rw [List.getElem?_set_ne hjn]
        exact hj
    · rw [List.mem_singleton.mp ho]
      exact ⟨_, hnew, rfl, le_rfl⟩
  · rw [List.getElem?_set] at hx
    split_ifs at hx with hni
    · cases hx
      rw [← hni]
      exact heap.mem_items_push.mpr (Or.inl rfl)
    · exact heap.mem_items_push.mpr (Or.inr (hbest.queued i x hx hi))
  · rw [List.getElem?_set] at hx
    rcases heap.mem_items_push.mp hh with rfl | hh
    · rw [if_pos rfl, if_pos hn] at hx
      cases hx
      exact Or.inl rfl
    · split_ifs at hx with hni
      · cases hx
        right
        rcases hbest.stale h hh (v, e) (hni ▸ he) with hcost | hdearer
        · rw [hcost]
          exact hlt
        · exact hlt.trans hdearer
      · exact hbest.stale h hh x hx

/-- An offer to a successor is taken into account. -/
theorem Best.relax (hinv : s.Inv successors root) (hbest : s.Best offered) (index : ℕ)
    (cost : WeightAndDistance) (v : E) (m : WeightAndDistance) :
    (DijkstraReachable.relax index cost s (v, m)).Best (offered ++ [(v, cost.add m)]) := by
  rcases s.relax_cases index cost v m with ⟨-, heq⟩ | ⟨n, e, he, ⟨hle, heq⟩ | ⟨hlt, heq⟩⟩
  · rw [heq]
    refine hbest.push (fun h hh => ?_) v (some index) (cost.add m)
    obtain ⟨u, hu, -⟩ := hinv.label h hh
    simpa [nodes] using (List.getElem?_eq_some_iff.mp hu).1
  · -- an offer no cheaper than the label
    rw [heq]
    refine ⟨fun x hx => List.mem_append_left _ (hbest.mem x hx), fun o ho => ?_, hbest.queued,
      hbest.stale⟩
    rcases List.mem_append.mp ho with ho | ho
    · exact hbest.least o ho
    · rw [List.mem_singleton.mp ho]
      exact ⟨(v, e), List.mem_of_getElem? he, rfl, hle⟩
  · rw [heq]
    exact hbest.replace he (some index) hlt

/-- Offers to successors are taken into account one after another. -/
theorem Best.foldl_relax {index : ℕ} {u : E} {cost : WeightAndDistance}
    (hwalk : Walk successors root u cost) :
    ∀ (ws : List (E × WeightAndDistance)) {s : DijkstraReachable E heap}
      {offered : List (E × WeightAndDistance)}, (∀ w ∈ ws, w ∈ successors u) →
      s.Inv successors root → s.Best offered → index ∈ s.seen → s.nodes[index]? = some u →
      (ws.foldl (DijkstraReachable.relax index cost) s).Best
        (offered ++ ws.map fun w => (w.1, cost.add w.2)) := by
  intro ws
  induction ws with
  | nil =>
    intro s offered _ _ hbest _ _
    simpa using hbest
  | cons w ws ih =>
    intro s offered hws hinv hbest hseen hu
    obtain ⟨v, m⟩ := w
    obtain ⟨hinv', hseen', hprefix, -⟩ := hinv.relax hseen hu hwalk (hws (v, m) List.mem_cons_self)
    have hrest := ih (fun w hw => hws w (List.mem_cons_of_mem _ hw)) hinv'
      (hbest.relax hinv index cost v m) (hseen'.symm ▸ hseen) (getElem?_mono hprefix hu)
    rw [List.append_assoc] at hrest
    exact hrest

omit [DecidableEq E] in
/-- A popped label is dropped where its node is settled, by now or before. -/
theorem Best.pop (hbest : s.Best offered) {holder : SmallestHolder} {toSee : heap.Carrier}
    (hpop : heap.pop s.toSee = some (holder, toSee)) {seen : List ℕ} (hsub : s.seen ⊆ seen)
    (hseen : holder.index ∈ seen) : Best offered { s with toSee := toSee, seen := seen } where
  mem := hbest.mem
  least := hbest.least
  queued i x hx hi := by
    have hqueued := hbest.queued i x hx fun h => hi (hsub h)
    rcases (PriorityQueue.mem_items_pop hpop).mp hqueued with rfl | hqueued
    · exact absurd hseen hi
    · exact hqueued
  stale h hh := hbest.stale h ((PriorityQueue.mem_items_pop hpop).mpr (Or.inr hh))

/-- The item is an offer made, none of those to nodes not settled was cheaper, and its own
offers are taken into account. -/
structure Takes (successors : E → List (E × WeightAndDistance))
    (offered : List (E × WeightAndDistance)) (s s' : DijkstraReachable E heap)
    (item : DijkstraReachableItem E) : Prop where
  mem : (item.node, item.totalCost) ∈ offered
  least : ∀ o ∈ offered, ¬ s.Settled o.1 → item.totalCost.repr ≤ o.2.repr
  best : s'.Best (offered ++ made successors [item])

/-- Settling the node of a label that was popped takes the least offer. -/
theorem Best.settle (hinv : s.Inv successors root) (hbest : s.Best offered)
    {holder : SmallestHolder} {toSee : heap.Carrier}
    (hpop : heap.pop s.toSee = some (holder, toSee)) (hseen : holder.index ∉ s.seen)
    {x : E × Option ℕ × WeightAndDistance} (hx : s.parents[holder.index]? = some x) :
    Takes successors offered s
      (DijkstraReachable.settle { s with toSee := toSee } holder (successors x.1))
      (item { s with toSee := toSee } x) := by
  have hnode := getElem?_nodes hx
  -- the label popped is the one the index map holds
  have hcost : holder.cost = x.2.2 := by
    have hle := PriorityQueue.key_pop_le hpop (hbest.queued holder.index x hx hseen)
    rcases hbest.stale holder ((PriorityQueue.mem_items_pop hpop).mpr (Or.inl rfl)) x hx with
      heq | hlt
    · exact heq
    · exact absurd hle (not_le.mpr hlt)
  have hwalk : Walk successors root x.1 holder.cost := by
    rw [hcost]
    exact hinv.entry x (List.mem_of_getElem? hx)
  refine ⟨hbest.mem x (List.mem_of_getElem? hx), fun o ho hns => ?_, ?_⟩
  · obtain ⟨y, hy, hyo, hrepr⟩ := hbest.least o ho
    obtain ⟨j, hj⟩ := List.getElem?_of_mem hy
    have hjs : j ∉ s.seen := fun h => hns ⟨j, h, hyo ▸ getElem?_nodes hj⟩
    have hle := PriorityQueue.key_pop_le hpop (hbest.queued j y hj hjs)
    rw [hcost] at hle
    exact hle.trans hrepr
  · have hpopped := hbest.pop hpop (List.subset_cons_self holder.index s.seen) List.mem_cons_self
    have hmade := Best.foldl_relax hwalk (successors x.1) (fun w hw => hw)
      (hinv.mark hpop hseen) hpopped List.mem_cons_self hnode
    rw [hcost] at hmade
    simpa [made, item, DijkstraReachable.settle, hcost] using hmade

/-- The rounds of `next` take the least offer. -/
theorem Inv.best_nextLoop : ∀ {fuel : ℕ} {s : DijkstraReachable E heap}, s.Inv successors root →
    s.Best offered → ∀ {item s'},
      DijkstraReachable.nextLoop (stateless successors) fuel s () = some (item, s', ()) →
      Takes successors offered s s' item := by
  intro fuel
  induction fuel with
  | zero => intro s _ _ item s' h; cases h
  | succ fuel ih =>
    intro s hinv hbest item s' h
    unfold DijkstraReachable.nextLoop at h
    cases hpop : heap.pop s.toSee with
    | none =>
      rw [hpop] at h
      cases h
    | some popped =>
      obtain ⟨holder, toSee⟩ := popped
      rw [hpop] at h
      simp only at h
      by_cases hseen : holder.index ∈ s.seen
      · rw [if_pos hseen] at h
        have htakes := ih (hinv.drop hpop hseen)
          (hbest.pop hpop (List.Subset.refl s.seen) hseen) h
        exact { htakes with }
      · rw [if_neg hseen] at h
        cases hx : s.parents[holder.index]? with
        | none =>
          rw [hx] at h
          cases h
        | some x =>
          rw [hx] at h
          cases h
          exact hbest.settle hinv hpop hseen hx

/-- **One round takes the least offer.** -/
theorem Inv.best_next (hinv : s.Inv successors root) (hbest : s.Best offered)
    {item : DijkstraReachableItem E} {s' : DijkstraReachable E heap}
    (h : s.next (stateless successors) () = some (item, s', ())) :
    Takes successors offered s s' item :=
  hinv.best_nextLoop hbest h

/-- **A search is greedy.**  Each item is an offer made by then, and none of the offers to
nodes not settled by then was cheaper. -/
theorem Run.greedy {s' : DijkstraReachable E heap} {rest : List (DijkstraReachableItem E)}
    (h : Run successors s rest s') (hinv : s.Inv successors root) (hbest : s.Best offered) :
    ∀ before item after, rest = before ++ item :: after →
      (item.node, item.totalCost) ∈ offered ++ made successors before ∧
      ∀ o ∈ offered ++ made successors before, ¬ s.Settled o.1 → o.1 ∉ before.map (·.node) →
        item.totalCost.repr ≤ o.2.repr := by
  induction h generalizing offered with
  | done =>
    intro before item after heq
    simp at heq
  | @step s s₁ s' item rest hnext _ ih =>
    have hstep := hinv.next.2 _ _ hnext
    have htakes := hinv.best_next hbest hnext
    intro before x after heq
    cases before with
    | nil =>
      cases heq
      simp only [made, List.flatMap_nil, List.append_nil]
      exact ⟨htakes.mem, fun o ho hns _ => htakes.least o ho hns⟩
    | cons first before =>
      cases heq
      have hmade : offered ++ made successors (item :: before)
          = offered ++ made successors [item] ++ made successors before := by
        simp [made]
      obtain ⟨hmem, hleast⟩ := ih hstep.inv htakes.best before x after rfl
      rw [hmade]
      refine ⟨hmem, fun o ho hns hnot => ?_⟩
      rw [List.map_cons, List.mem_cons, not_or] at hnot
      exact hleast o ho (fun h => ((hstep.settled _).mp h).elim hnot.1 hns) hnot.2

omit [DecidableEq E] in
/-- A search that has settled nothing has offered the root. -/
theorem best_reach (successors : E → List (E × WeightAndDistance)) (root : E) :
    (Dijkstra.reach heap root).Best (offers successors root []) := by
  have hparents : ∀ (i : ℕ) x, (Dijkstra.reach heap root).parents[i]? = some x →
      i = 0 ∧ x = (root, none, WeightAndDistance.zero) := by
    intro i x hx
    rw [Dijkstra.reach, List.getElem?_singleton] at hx
    split_ifs at hx with hi
    exact ⟨hi, (Option.some.inj hx).symm⟩
  refine ⟨fun x hx => ?_, fun o ho => ?_, fun i x hx _ => ?_, fun h hh x hx => ?_⟩
  · rw [List.mem_singleton.mp hx]
    exact List.mem_cons_self
  · rw [show o = (root, WeightAndDistance.zero) from List.mem_singleton.mp ho]
    exact ⟨_, List.mem_singleton.mpr rfl, rfl, le_rfl⟩
  · obtain ⟨rfl, rfl⟩ := hparents i x hx
    exact mem_items_reach.mpr rfl
  · obtain ⟨-, rfl⟩ := hparents _ x hx
    rw [mem_items_reach.mp hh]
    exact Or.inl rfl

end DijkstraReachable

end Routers
