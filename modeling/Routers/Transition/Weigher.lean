import Routers.Transition.Costing
import Routers.Trellis.Window

/-!
# Weighing

A weigher fills the pending boundaries of a trellis with transition costs, and leaves
the resolved ones as they are.  A boundary nothing bridges stays pending: that is how a
trellis records a gap.

## Main definitions

* `MatchError` — why a match fails.
* `Weigher` — the strategy, and `Weigher.hop`, `weighBoundary`, `weigh` on top of it.
* `frontierCollapse` — where the reachable frontier of a resolved trellis dies.

## Main results

* `Weigher.weigh_eq` — **what weighing does to a trellis.**
* `Weigher.weighBoundary_spec` — the weights are those of hops.
* `Weigher.weighBoundary_congr` — they do not depend on where the layers are placed.

## References

`src/libs/routers_transition/src/weigh/mod.rs`,
`src/libs/routers_transition/src/weigh/all_compute.rs`,
`src/libs/routers_transition/src/weigh/selective.rs` and
`src/libs/routers_transition/src/primitives/error.rs`.
-/

namespace Routers

/-! ### Errors -/

/-- A trajectory point that could not be placed on the road network. -/
structure Unanchored (P : Type) where
  layer : ℕ
  origin : P
  deriving DecidableEq, Repr

/-- The boundary between two adjacent layers across which the route breaks. -/
structure Disconnected (P : Type) where
  fromLayer : ℕ
  toLayer : ℕ
  fromOrigin : P
  toOrigin : P
  deriving DecidableEq, Repr

/-- Why a match fails. -/
inductive MatchError (P : Type)
  | unanchored (points : List (Unanchored P))
  | disconnected (breaks : List (Disconnected P))
  | trellisError (e : TrellisError)
  | solveError (e : SolveError)
  deriving DecidableEq, Repr

/-! ### The weigher -/

/-- A strategy for weighing: how far its cache reaches, the heap of its searches, and
which candidates of the next layer it weighs for a source. -/
structure Weigher (E P M R : Type) where
  heap : Heap
  reachDistance : ℕ
  select : RoutingContext E P M R → Candidate E P → List (Candidate E P) → List ℕ

namespace Weigher

variable {E P M R : Type} [DecidableEq E] [Inhabited E] [Geometry P]

/-- How candidate `dst` is reached from `src` on the road network. -/
def reach (weigher : Weigher E P M R) (ctx : RoutingContext E P M R) (src dst : CandidateRef) :
    Option (Reachable E) :=
  Expansion.reach weigher.heap weigher.reachDistance ctx src dst

/-- The transition cost, clamped to the weight ceiling, or `none` when `dst` is
unreachable. -/
def hop (weigher : Weigher E P M R) (costing : CostingStrategies E P)
    (ctx : RoutingContext E P M R) (src dst : CandidateRef) : Option ℕ :=
  match weigher.reach ctx src dst with
  | none => none
  | some reachable =>
    (TransitionContext.new ctx reachable.source reachable.target reachable.pathNodes).map
      fun context =>
        min (costing.transition (context.withResolutionMethod reachable.resolutionMethod)) maxWeight

/-- Weigh one candidate of the next layer.  An index out of the layer would panic. -/
def weighTarget (weigher : Weigher E P M R) (costing : CostingStrategies E P)
    (ctx : RoutingContext E P M R) (source : Candidate E P) (toLayer : List (Candidate E P))
    (row : List ℕ) (dst : ℕ) : List ℕ :=
  match toLayer[dst]? with
  | none => row
  | some target =>
    match weigher.hop costing ctx source.location target.location with
    | some cost => row.set dst cost
    | none => row

/-- One source's outgoing weights, `noEdge` where absent. -/
def weighSource (weigher : Weigher E P M R) (costing : CostingStrategies E P)
    (ctx : RoutingContext E P M R) (toLayer : List (Candidate E P)) (source : Candidate E P) :
    List ℕ :=
  (weigher.select ctx source toLayer).foldl (weigher.weighTarget costing ctx source toLayer)
    (List.replicate toLayer.length noEdge)

/-- One boundary's row-major weight matrix. -/
def weighBoundary (weigher : Weigher E P M R) (costing : CostingStrategies E P)
    (ctx : RoutingContext E P M R) (boundary : ℕ) : List ℕ :=
  match ctx.candidates.layer boundary, ctx.candidates.layer (boundary + 1) with
  | some fromLayer, some toLayer =>
    (fromLayer.map (weigher.weighSource costing ctx toLayer)).flatten
  | _, _ => []

/-- Fill the boundaries that something bridges, until one is refused. -/
def fillAll : List (ℕ × List ℕ) → Trellis → Except (MatchError P) Unit × Trellis
  | [], t => (.ok (), t)
  | (boundary, matrix) :: weighed, t =>
    if matrix.all (· = noEdge) then fillAll weighed t
    else
      match t.fillTransition boundary matrix with
      | (.ok (), t) => fillAll weighed t
      | (.error e, t) => (.error (.trellisError e), t)

/-- Weigh every pending boundary of a trellis. -/
def weigh (weigher : Weigher E P M R) (costing : CostingStrategies E P)
    (ctx : RoutingContext E P M R) (t : Trellis) : Except (MatchError P) Unit × Trellis :=
  let pending := t.boundaries.filter fun boundary => !t.isResolved boundary
  fillAll (pending.map fun boundary => (boundary, weigher.weighBoundary costing ctx boundary)) t

/-- The fastest exact strategy: weigh every candidate of the next layer. -/
def allCompute (heap : Heap) (reachDistance : ℕ) : Weigher E P M R where
  heap := heap
  reachDistance := reachDistance
  select _ _ toLayer := List.range toLayer.length

/-- Weigh the `fanout` candidates of the next layer nearest to the source.  `nearest` is
the library's partial selection, which leaves open how ties are broken. -/
def selective (heap : Heap) (reachDistance fanout : ℕ) (nearest : List ℚ → ℕ → List ℕ) :
    Weigher E P M R where
  heap := heap
  reachDistance := reachDistance
  select _ source toLayer :=
    if fanout < toLayer.length then
      nearest (toLayer.map fun c => Geometry.distance source.position c.position) fanout
    else List.range toLayer.length

/-! ### The weights -/

/-- A row is as long as the next layer, and each of its weights is absent or a hop's. -/
structure IsRow (weigher : Weigher E P M R) (costing : CostingStrategies E P)
    (ctx : RoutingContext E P M R) (source : Candidate E P) (toLayer : List (Candidate E P))
    (row : List ℕ) : Prop where
  length_eq : row.length = toLayer.length
  entry : ∀ (dst weight : ℕ), row[dst]? = some weight → weight = noEdge ∨ ∃ target : Candidate E P,
    toLayer[dst]? = some target ∧
      weigher.hop costing ctx source.location target.location = some weight

section Spec

variable (weigher : Weigher E P M R) (costing : CostingStrategies E P) (ctx : RoutingContext E P M R)

variable {weigher costing ctx} in
theorem IsRow.weighTarget {source : Candidate E P} {toLayer : List (Candidate E P)} {row : List ℕ}
    (h : IsRow weigher costing ctx source toLayer row) (dst : ℕ) :
    IsRow weigher costing ctx source toLayer
      (weigher.weighTarget costing ctx source toLayer row dst) := by
  unfold Weigher.weighTarget
  cases htarget : toLayer[dst]? with
  | none => exact h
  | some target =>
    cases hhop : weigher.hop costing ctx source.location target.location with
    | none => simpa only [hhop] using h
    | some cost =>
      simp only [hhop]
      refine ⟨by rw [List.length_set, h.length_eq], fun k weight hk => ?_⟩
      rw [List.getElem?_set] at hk
      split_ifs at hk with heq hlt
      · cases hk
        exact Or.inr ⟨target, heq ▸ htarget, hhop⟩
      · exact h.entry k weight hk

theorem isRow_weighSource (source : Candidate E P) (toLayer : List (Candidate E P)) :
    IsRow weigher costing ctx source toLayer
      (weigher.weighSource costing ctx toLayer source) := by
  have hrun : ∀ (selected row : List ℕ), IsRow weigher costing ctx source toLayer row →
      IsRow weigher costing ctx source toLayer
        (selected.foldl (weigher.weighTarget costing ctx source toLayer) row) := by
    intro selected
    induction selected with
    | nil => intro row h; exact h
    | cons dst selected ih =>
      intro row h
      exact ih _ (h.weighTarget dst)
  refine hrun _ _ ⟨List.length_replicate .., fun dst weight hdst => ?_⟩
  rw [List.getElem?_replicate] at hdst
  split_ifs at hdst
  exact Or.inl (Option.some.inj hdst).symm

theorem hop_le_maxWeight {src dst : CandidateRef} {cost : ℕ}
    (h : weigher.hop costing ctx src dst = some cost) : cost ≤ maxWeight := by
  unfold hop at h
  split at h
  · cases h
  · rw [Option.map_eq_some_iff] at h
    obtain ⟨context, -, rfl⟩ := h
    exact Nat.min_le_right _ _

/-- A hop is priced only where the candidate is reached. -/
theorem reach_of_hop {src dst : CandidateRef} {cost : ℕ}
    (h : weigher.hop costing ctx src dst = some cost) : (weigher.reach ctx src dst).isSome := by
  unfold hop at h
  cases hreach : weigher.reach ctx src dst with
  | none =>
    rw [hreach] at h
    cases h
  | some reachable => rfl

/-- The entries of rows of one length, stacked. -/
theorem getElem?_flatten {rows : List (List ℕ)} {n : ℕ} (hrows : ∀ row ∈ rows, row.length = n) :
    rows.flatten.length = rows.length * n ∧
      ∀ s d, d < n → rows.flatten[s * n + d]? = rows[s]?.bind fun row => row[d]? := by
  induction rows with
  | nil => simp
  | cons row rows ih =>
    have hrow : row.length = n := hrows row List.mem_cons_self
    obtain ⟨hlen, hget⟩ := ih fun r hr => hrows r (List.mem_cons_of_mem _ hr)
    rw [List.flatten_cons]
    refine ⟨by rw [List.length_append, hlen, hrow, List.length_cons, Nat.succ_mul, Nat.add_comm],
      fun s d hd => ?_⟩
    cases s with
    | zero =>
      rw [Nat.zero_mul, Nat.zero_add, List.getElem?_append_left (by omega)]
      rfl
    | succ s =>
      have hle : row.length ≤ (s + 1) * n + d := by
        rw [Nat.succ_mul]
        omega
      have hsub : (s + 1) * n + d - row.length = s * n + d := by
        rw [Nat.succ_mul, hrow]
        omega
      rw [List.getElem?_append_right hle, hsub, hget s d hd]
      rfl

/-- The weights of a boundary are those of its sources, row by row. -/
theorem getElem?_weighBoundary {boundary : ℕ} {fromLayer toLayer : List (Candidate E P)}
    (hfrom : ctx.candidates.layer boundary = some fromLayer)
    (hto : ctx.candidates.layer (boundary + 1) = some toLayer) :
    (weigher.weighBoundary costing ctx boundary).length = fromLayer.length * toLayer.length ∧
      ∀ src dst, dst < toLayer.length →
        (weigher.weighBoundary costing ctx boundary)[src * toLayer.length + dst]?
          = fromLayer[src]?.bind fun source =>
              (weigher.weighSource costing ctx toLayer source)[dst]? := by
  have hrows : ∀ row ∈ fromLayer.map (weigher.weighSource costing ctx toLayer),
      row.length = toLayer.length := by
    intro row hrow
    obtain ⟨source, -, rfl⟩ := List.mem_map.mp hrow
    exact (isRow_weighSource weigher costing ctx source toLayer).length_eq
  obtain ⟨hlen, hget⟩ := getElem?_flatten hrows
  simp only [weighBoundary, hfrom, hto]
  refine ⟨by rw [hlen, List.length_map], fun src dst hdst => ?_⟩
  rw [hget src dst hdst, List.getElem?_map]
  cases fromLayer[src]? <;> rfl

/-- **The weights of a boundary** are absent or those of hops between its candidates. -/
theorem weighBoundary_spec {boundary : ℕ} {fromLayer toLayer : List (Candidate E P)}
    (hfrom : ctx.candidates.layer boundary = some fromLayer)
    (hto : ctx.candidates.layer (boundary + 1) = some toLayer) :
    (weigher.weighBoundary costing ctx boundary).length = fromLayer.length * toLayer.length ∧
      ∀ (src dst weight : ℕ), dst < toLayer.length →
        (weigher.weighBoundary costing ctx boundary)[src * toLayer.length + dst]? = some weight →
          weight = noEdge ∨ ∃ source target : Candidate E P, fromLayer[src]? = some source ∧
            toLayer[dst]? = some target ∧
              weigher.hop costing ctx source.location target.location = some weight := by
  obtain ⟨hlen, hget⟩ := getElem?_weighBoundary weigher costing ctx hfrom hto
  refine ⟨hlen, fun src dst weight hdst hweight => ?_⟩
  rw [hget src dst hdst] at hweight
  cases hsource : fromLayer[src]? with
  | none =>
    rw [hsource] at hweight
    cases hweight
  | some source =>
    rw [hsource] at hweight
    rcases (isRow_weighSource weigher costing ctx source toLayer).entry dst weight hweight with
      habsent | ⟨target, htarget, hhop⟩
    · exact Or.inl habsent
    · exact Or.inr ⟨source, target, rfl, htarget, hhop⟩

/-- What a boundary is filled with is fit for a transition. -/
theorem weighBoundary_le {boundary weight : ℕ}
    (h : weight ∈ weigher.weighBoundary costing ctx boundary) :
    weight = noEdge ∨ weight ≤ maxWeight := by
  unfold weighBoundary at h
  split at h
  · obtain ⟨row, hrow, hweight⟩ := List.mem_flatten.mp h
    obtain ⟨source, -, rfl⟩ := List.mem_map.mp hrow
    obtain ⟨dst, hdst⟩ := List.getElem?_of_mem hweight
    rcases (isRow_weighSource weigher costing ctx source _).entry dst weight hdst with
      habsent | ⟨target, -, hhop⟩
    · exact Or.inl habsent
    · exact Or.inr (hop_le_maxWeight weigher costing ctx hhop)
  · cases h

/-! ### What weighing does -/

/-- The transition a weighing writes at a boundary; one that nothing bridges stays. -/
def bridged (boundary : ℕ) (transition : Transition) : Transition :=
  let matrix := weigher.weighBoundary costing ctx boundary
  if matrix.all (· = noEdge) then transition
  else .resolved (matrix.map fun w => if w = noEdge then infW else w)

/-- The transition of a boundary after a weighing. -/
def weighed (boundary : ℕ) (transition : Transition) : Transition :=
  if transition.isResolved then transition else weigher.bridged costing ctx boundary transition

/-- The trellis a weighing leaves. -/
def weighedTrellis (t : Trellis) : Trellis :=
  { t with transitions := t.transitions.mapIdx (weigher.weighed costing ctx) }

variable {ctx}

theorem length_weighBoundary {t : Trellis}
    (hwidths : ctx.candidates.layers.map List.length = t.widths) {boundary : ℕ}
    (hb : boundary + 1 < t.layers) :
    (weigher.weighBoundary costing ctx boundary).length
      = t.width boundary * t.width (boundary + 1) := by
  have hlayer : ∀ k < t.layers, ∃ layer, ctx.candidates.layer k = some layer ∧
      layer.length = t.width k := by
    intro k hk
    have hk' : k < ctx.candidates.layers.length := by
      rw [Trellis.layers, ← hwidths, List.length_map] at hk
      exact hk
    refine ⟨_, List.getElem?_eq_getElem hk', ?_⟩
    rw [Trellis.width, ← hwidths, List.getD_eq_getElem?_getD, List.getElem?_map,
      List.getElem?_eq_getElem hk']
    rfl
  obtain ⟨fromLayer, hfrom, hfromlen⟩ := hlayer boundary (by omega)
  obtain ⟨toLayer, hto, htolen⟩ := hlayer (boundary + 1) hb
  rw [(weighBoundary_spec weigher costing ctx hfrom hto).1, hfromlen, htolen]

/-- Filling boundaries of a trellis as wide as the store. -/
theorem fillAll_eq (bs : List ℕ) : ∀ {t : Trellis},
    ctx.candidates.layers.map List.length = t.widths → bs.Nodup → (∀ b ∈ bs, b + 1 < t.layers) →
      fillAll (P := P) (bs.map fun b => (b, weigher.weighBoundary costing ctx b)) t
        = (.ok (), { t with transitions := t.transitions.mapIdx fun k transition =>
            if k ∈ bs then weigher.bridged costing ctx k transition else transition }) := by
  induction bs with
  | nil =>
    intro t _ _ _
    have hkeep : t.transitions.mapIdx (fun _ transition => transition) = t.transitions := by
      apply List.ext_getElem?
      simp
    simp [fillAll, hkeep]
  | cons b bs ih =>
    intro t hwidths hnd hlt
    rw [List.nodup_cons] at hnd
    have hb := hlt b List.mem_cons_self
    have hrest : ∀ b ∈ bs, b + 1 < t.layers := fun b hb => hlt b (List.mem_cons_of_mem _ hb)
    rw [List.map_cons, fillAll]
    by_cases hall : (weigher.weighBoundary costing ctx b).all (· = noEdge) = true
    · rw [if_pos hall, ih hwidths hnd.2 hrest]
      congr 2
      apply List.ext_getElem?
      intro k
      rw [List.getElem?_mapIdx, List.getElem?_mapIdx]
      by_cases hk : k = b
      · subst hk
        simp [hnd.1, bridged, hall]
      · simp [hk]
    · rw [if_neg hall, Trellis.fillTransition_accept hb (length_weighBoundary weigher costing hwidths hb)
        fun w hw => weighBoundary_le weigher costing ctx hw]
      simp only
      rw [ih (t := t.setTransition b _) hwidths hnd.2 hrest]
      congr 2
      apply List.ext_getElem?
      intro k
      rw [List.getElem?_mapIdx, List.getElem?_mapIdx, Trellis.setTransition, List.getElem?_set]
      by_cases hk : b = k
      · subst hk
        by_cases hlen : b < t.transitions.length
        · simp [hnd.1, bridged, hall, hlen]
        · simp [hlen]
      · simp [hk, Ne.symm hk]

/-- **Weighing** writes at every pending boundary that something bridges the weights of
its hops, and nothing else. -/
theorem weigh_eq {t : Trellis} (hv : t.Valid)
    (hwidths : ctx.candidates.layers.map List.length = t.widths) :
    weigher.weigh costing ctx t = (.ok (), weigher.weighedTrellis costing ctx t) := by
  have htr := hv.transitions_length
  rw [weigh, fillAll_eq weigher costing _ hwidths, weighedTrellis]
  · congr 2
    apply List.ext_getElem?
    intro k
    rw [List.getElem?_mapIdx, List.getElem?_mapIdx]
    cases htransition : t.transitions[k]? with
    | none => rfl
    | some transition =>
      have hk := (List.getElem?_eq_some_iff.mp htransition).1
      have hresolved : t.isResolved k = transition.isResolved := by
        rw [Trellis.isResolved, htransition]
        rfl
      simp only [Option.map_some, List.mem_filter, Trellis.boundaries, List.mem_range, hk,
        hresolved, true_and, weighed]
      cases transition.isResolved with
      | true => simp
      | false => simp
  · exact List.nodup_range.filter _
  · intro b hb
    have := List.mem_range.mp (List.mem_of_mem_filter hb)
    omega

theorem bridged_cases (boundary : ℕ) {weights : List ℕ}
    (h : weigher.bridged costing ctx boundary .pending = .resolved weights) :
    weights = (weigher.weighBoundary costing ctx boundary).map
      fun w => if w = noEdge then infW else w := by
  unfold bridged at h
  simp only at h
  split_ifs at h
  cases h
  rfl

/-- Where a weighing writes an edge, the one candidate is reached from the other. -/
theorem reach_of_bridged (hplaced : ctx.candidates.Placed) {boundary : ℕ}
    {fromLayer toLayer : List (Candidate E P)}
    (hfrom : ctx.candidates.layer boundary = some fromLayer)
    (hto : ctx.candidates.layer (boundary + 1) = some toLayer) {weights : List ℕ}
    (hbridged : weigher.bridged costing ctx boundary .pending = .resolved weights)
    {src dst weight : ℕ} (hdst : dst < toLayer.length)
    (hget : weights[src * toLayer.length + dst]? = some weight) (hlt : weight < infW) :
    (weigher.reach ctx ⟨boundary, src⟩ ⟨boundary + 1, dst⟩).isSome := by
  rw [weigher.bridged_cases costing boundary hbridged, List.getElem?_map] at hget
  obtain ⟨raw, hraw, rfl⟩ := Option.map_eq_some_iff.mp hget
  split_ifs at hlt with habsent
  · exact absurd hlt (lt_irrefl _)
  · rcases (weigher.weighBoundary_spec costing ctx hfrom hto).2 src dst raw hdst hraw with
      hnone | ⟨source, target, hsource, htarget, hhop⟩
    · exact absurd hnone habsent
    · have hs : source.location = ⟨boundary, src⟩ :=
        hplaced ⟨boundary, src⟩ source (by rw [CandidateStore.candidate_eq, hfrom]; exact hsource)
      have ht : target.location = ⟨boundary + 1, dst⟩ :=
        hplaced ⟨boundary + 1, dst⟩ target (by rw [CandidateStore.candidate_eq, hto]; exact htarget)
      rw [hs, ht] at hhop
      exact weigher.reach_of_hop costing ctx hhop

/-- A resolved transition of the trellis left was one before, or holds weights of hops. -/
theorem getElem?_weighedTrellis {t : Trellis} {k : ℕ} {weights : List ℕ}
    (h : (weigher.weighedTrellis costing ctx t).transitions[k]? = some (Transition.resolved weights)) :
    t.transitions[k]? = some (Transition.resolved weights) ∨
      t.transitions[k]? = some Transition.pending ∧
        weigher.bridged costing ctx k .pending = .resolved weights := by
  simp only [weighedTrellis, List.getElem?_mapIdx] at h
  obtain ⟨transition, htransition, hweighed⟩ := Option.map_eq_some_iff.mp h
  cases transition with
  | pending => exact Or.inr ⟨htransition, hweighed⟩
  | resolved w =>
    left
    rw [htransition, ← hweighed]
    rfl

theorem weighedTrellis_valid {t : Trellis} (hv : t.Valid)
    (hwidths : ctx.candidates.layers.map List.length = t.widths) :
    (weigher.weighedTrellis costing ctx t).Valid := by
  have htr := hv.transitions_length
  -- what a boundary is filled with has the size of a transition, and its weights
  have hfilled : ∀ (k : ℕ) (weights : List ℕ), t.transitions[k]? = some Transition.pending →
      weigher.bridged costing ctx k .pending = .resolved weights →
        weights.length = t.width k * t.width (k + 1) ∧ ∀ w ∈ weights, w ≤ maxWeight ∨ w = infW := by
    intro k weights hk hbridged
    have hlt := (List.getElem?_eq_some_iff.mp hk).1
    obtain rfl := weigher.bridged_cases costing k hbridged
    refine ⟨by rw [List.length_map, length_weighBoundary weigher costing hwidths (by omega)],
      fun w hw => ?_⟩
    obtain ⟨v, hv, rfl⟩ := List.mem_map.mp hw
    split_ifs with habsent
    · exact Or.inr rfl
    · exact Or.inl ((weighBoundary_le weigher costing ctx hv).resolve_left habsent)
  exact
    { layers_pos := hv.layers_pos
      width_pos := hv.width_pos
      nodes_length := hv.nodes_length
      transitions_length := by
        rw [weighedTrellis, List.length_mapIdx]
        exact htr
      node_le := hv.node_le
      weights_length := fun k weights hk => by
        rcases weigher.getElem?_weighedTrellis costing hk with hold | ⟨hpending, hbridged⟩
        · exact hv.weights_length k weights hold
        · exact (hfilled k weights hpending hbridged).1
      weights_le := fun k weights hk => by
        rcases weigher.getElem?_weighedTrellis costing hk with hold | ⟨hpending, hbridged⟩
        · exact hv.weights_le k weights hold
        · exact (hfilled k weights hpending hbridged).2 }

end Spec

/-! ### Places make no difference -/

/-- The placement of the layers is not to choose the candidates weighed. -/
def Placeless (weigher : Weigher E P M R) : Prop :=
  ∀ (store store' : CandidateStore E P) (map : Network E P M R) (runtime : R)
    (source source' : Candidate E P) (toLayer toLayer' : List (Candidate E P)),
    source.anchor = source'.anchor → toLayer.map Candidate.anchor = toLayer'.map Candidate.anchor →
      weigher.select ⟨store, map, runtime⟩ source toLayer
        = weigher.select ⟨store', map, runtime⟩ source' toLayer'

omit [DecidableEq E] [Inhabited E] [Geometry P] in
theorem placeless_allCompute (heap : Heap) (reachDistance : ℕ) :
    (allCompute heap reachDistance : Weigher E P M R).Placeless := by
  intro store store' map runtime source source' toLayer toLayer' _ hlayer
  have hlen := congrArg List.length hlayer
  simp only [List.length_map] at hlen
  simp only [allCompute, hlen]

omit [DecidableEq E] [Inhabited E] in
theorem placeless_selective (heap : Heap) (reachDistance fanout : ℕ)
    (nearest : List ℚ → ℕ → List ℕ) :
    (selective heap reachDistance fanout nearest : Weigher E P M R).Placeless := by
  intro store store' map runtime source source' toLayer toLayer' hsource hlayer
  have hlen := congrArg List.length hlayer
  simp only [List.length_map] at hlen
  have hdistance : ∀ (c : Candidate E P) (layer : List (Candidate E P)),
      (layer.map fun d => Geometry.distance c.position d.position)
        = (layer.map Candidate.anchor).map fun anchor =>
            Geometry.distance c.anchor.2.1 anchor.2.1 := by
    intro c layer
    simp only [List.map_map]
    rfl
  simp only [selective, hlen, hdistance, hsource, hlayer]

section Congr

variable {weigher : Weigher E P M R} {costing : CostingStrategies E P}
  {store store' : CandidateStore E P} {map : Network E P M R} {runtime : R}

variable (weigher map runtime)

omit [DecidableEq E] [Inhabited E] in
/-- The context of a transition between the same candidates, but for their places. -/
theorem agree_new {src src' dst dst' : CandidateRef} {source source' target target' : Candidate E P}
    (hsrc : store.candidate src = some source) (hsrc' : store'.candidate src' = some source')
    (hdst : store.candidate dst = some target) (hdst' : store'.candidate dst' = some target')
    (hsource : source.anchor = source'.anchor) (htarget : target.anchor = target'.anchor)
    (mapPath : List E) :
    ∃ context context', TransitionContext.new ⟨store, map, runtime⟩ src dst mapPath = some context ∧
      TransitionContext.new ⟨store', map, runtime⟩ src' dst' mapPath = some context' ∧
      ∀ method, TransitionContext.Agree (context.withResolutionMethod method)
        (context'.withResolutionMethod method) := by
  obtain ⟨l, rfl⟩ := Candidate.eq_place_of_anchor hsource
  obtain ⟨m, rfl⟩ := Candidate.eq_place_of_anchor htarget
  simp only [TransitionContext.new, RoutingContext.candidate, hsrc, hsrc', hdst, hdst']
  refine ⟨_, _, rfl, rfl, fun method => ⟨rfl, rfl, rfl, rfl, rfl, rfl, rfl, ?_, ?_⟩⟩
  · simp only [TransitionContext.withResolutionMethod, hsrc, hsrc', Option.map_some, hsource]
  · simp only [TransitionContext.withResolutionMethod, hdst, hdst', Option.map_some, htarget]

/-- The same candidates are reached from one another by the same path, wherever they are
placed. -/
theorem reach_congr {src src' dst dst' : CandidateRef} {source source' target target' : Candidate E P}
    (hsrc : store.candidate src = some source) (hsrc' : store'.candidate src' = some source')
    (hdst : store.candidate dst = some target) (hdst' : store'.candidate dst' = some target')
    (hsource : source.anchor = source'.anchor) (htarget : target.anchor = target'.anchor) :
    (weigher.reach ⟨store, map, runtime⟩ src dst = none ∧
      weigher.reach ⟨store', map, runtime⟩ src' dst' = none) ∨
    ∃ path method, weigher.reach ⟨store, map, runtime⟩ src dst = some ⟨src, dst, path, method⟩ ∧
      weigher.reach ⟨store', map, runtime⟩ src' dst' = some ⟨src', dst', path, method⟩ := by
  obtain ⟨l, rfl⟩ := Candidate.eq_place_of_anchor hsource
  obtain ⟨m, rfl⟩ := Candidate.eq_place_of_anchor htarget
  have hdirect : (source.place l).directlyReachable (target.place m) map
      = source.directlyReachable target map := rfl
  have hroute : Expansion.route weigher.heap weigher.reachDistance ⟨store', map, runtime⟩
        (source.place l) (target.place m)
      = Expansion.route weigher.heap weigher.reachDistance ⟨store, map, runtime⟩ source target := rfl
  simp only [reach, Expansion.reach, RoutingContext.candidate, hsrc, hsrc', hdst, hdst', hdirect,
    hroute]
  cases source.directlyReachable target map with
  | none => exact Or.inl ⟨rfl, rfl⟩
  | some direct =>
    cases direct with
    | true => exact Or.inr ⟨_, _, rfl, rfl⟩
    | false =>
      cases Expansion.route weigher.heap weigher.reachDistance ⟨store, map, runtime⟩ source target with
      | none => exact Or.inl ⟨rfl, rfl⟩
      | some edges => exact Or.inr ⟨_, _, rfl, rfl⟩

variable {weigher map runtime}

/-- A hop between the same candidates costs the same, wherever they are placed. -/
theorem hop_congr (hcosting : costing.Placeless) {src src' dst dst' : CandidateRef}
    {source source' target target' : Candidate E P}
    (hsrc : store.candidate src = some source) (hsrc' : store'.candidate src' = some source')
    (hdst : store.candidate dst = some target) (hdst' : store'.candidate dst' = some target')
    (hsource : source.anchor = source'.anchor) (htarget : target.anchor = target'.anchor) :
    weigher.hop costing ⟨store, map, runtime⟩ src dst
      = weigher.hop costing ⟨store', map, runtime⟩ src' dst' := by
  rcases reach_congr weigher map runtime hsrc hsrc' hdst hdst' hsource htarget with
    ⟨hr, hr'⟩ | ⟨path, method, hr, hr'⟩
  · rw [hop, hop, hr, hr']
  · obtain ⟨context, context', hnew, hnew', hagree⟩ := agree_new map runtime hsrc hsrc' hdst hdst'
      hsource htarget (Reachable.pathNodes ⟨src, dst, path, method⟩)
    have hnodes : Reachable.pathNodes ⟨src', dst', path, method⟩
      = Reachable.pathNodes ⟨src, dst, path, method⟩ := rfl
    rw [hop, hop, hr, hr']
    simp only [hnodes, hnew, hnew', Option.map_some, hcosting _ _ (hagree method)]

theorem weighSource_congr (hweigher : weigher.Placeless) (hcosting : costing.Placeless)
    {source source' : Candidate E P} {toLayer toLayer' : List (Candidate E P)}
    (hs : store.candidate source.location = some source)
    (hs' : store'.candidate source'.location = some source')
    (hd : ∀ c ∈ toLayer, store.candidate c.location = some c)
    (hd' : ∀ c ∈ toLayer', store'.candidate c.location = some c)
    (hsource : source.anchor = source'.anchor)
    (htargets : toLayer.map Candidate.anchor = toLayer'.map Candidate.anchor) :
    weigher.weighSource costing ⟨store, map, runtime⟩ toLayer source
      = weigher.weighSource costing ⟨store', map, runtime⟩ toLayer' source' := by
  have hstep : weigher.weighTarget costing ⟨store, map, runtime⟩ source toLayer
      = weigher.weighTarget costing ⟨store', map, runtime⟩ source' toLayer' := by
    funext row dst
    have hget := congrArg (fun layer => layer[dst]?) htargets
    simp only [List.getElem?_map] at hget
    unfold weighTarget
    cases htarget : toLayer[dst]? with
    | none =>
      rw [htarget, Option.map_none] at hget
      rw [Option.map_eq_none_iff.mp hget.symm]
    | some target =>
      rw [htarget, Option.map_some] at hget
      obtain ⟨target', htarget', hanchor⟩ := Option.map_eq_some_iff.mp hget.symm
      simp only [htarget']
      rw [hop_congr hcosting hs hs' (hd target (List.mem_of_getElem? htarget))
        (hd' target' (List.mem_of_getElem? htarget')) hsource hanchor.symm]
  have hlen := congrArg List.length htargets
  simp only [List.length_map] at hlen
  rw [weighSource, weighSource, hstep, hlen,
    hweigher store store' map runtime source source' toLayer toLayer' hsource htargets]

/-- **The weights of a boundary do not depend on where its layers are placed.** -/
theorem weighBoundary_congr (hweigher : weigher.Placeless) (hcosting : costing.Placeless)
    (hplaced : store.Placed) (hplaced' : store'.Placed) {boundary boundary' : ℕ}
    (hfrom : (store.layer boundary).map (List.map Candidate.anchor)
      = (store'.layer boundary').map (List.map Candidate.anchor))
    (hto : (store.layer (boundary + 1)).map (List.map Candidate.anchor)
      = (store'.layer (boundary' + 1)).map (List.map Candidate.anchor)) :
    weigher.weighBoundary costing ⟨store, map, runtime⟩ boundary
      = weigher.weighBoundary costing ⟨store', map, runtime⟩ boundary' := by
  unfold weighBoundary
  cases hf : store.layer boundary with
  | none =>
    rw [hf, Option.map_none] at hfrom
    rw [Option.map_eq_none_iff.mp hfrom.symm]
  | some fromLayer =>
    rw [hf, Option.map_some] at hfrom
    obtain ⟨fromLayer', hf', hsources⟩ := Option.map_eq_some_iff.mp hfrom.symm
    cases ht : store.layer (boundary + 1) with
    | none =>
      rw [ht, Option.map_none] at hto
      rw [Option.map_eq_none_iff.mp hto.symm, hf']
    | some toLayer =>
      rw [ht, Option.map_some] at hto
      obtain ⟨toLayer', ht', htargets⟩ := Option.map_eq_some_iff.mp hto.symm
      simp only [hf', ht']
      congr 1
      apply List.ext_getElem?
      intro src
      have hget := congrArg (fun layer => layer[src]?) hsources
      simp only [List.getElem?_map] at hget ⊢
      cases hsource' : fromLayer'[src]? with
      | none =>
        rw [hsource', Option.map_none] at hget
        rw [Option.map_eq_none_iff.mp hget.symm]
        rfl
      | some source' =>
        rw [hsource', Option.map_some] at hget
        obtain ⟨source, hsource, hanchor⟩ := Option.map_eq_some_iff.mp hget.symm
        rw [hsource]
        exact congrArg some (weighSource_congr hweigher hcosting
          (hplaced.candidate_location hf (List.mem_of_getElem? hsource))
          (hplaced'.candidate_location hf' (List.mem_of_getElem? hsource'))
          (fun c hc => hplaced.candidate_location ht hc)
          (fun c hc => hplaced'.candidate_location ht' hc) hanchor htargets.symm)

end Congr

end Weigher

/-! ### The reachable frontier -/

/-- The targets of a boundary that a reachable source has a present edge to; where there
are none the route breaks, and starts anew behind the boundary. -/
def frontierStep (t : Trellis) (state : List ℕ × List ℕ) (boundary : ℕ) : List ℕ × List ℕ :=
  let toWidth := t.widths.getD (boundary + 1) 0
  let next :=
    match t.layer boundary with
    | some matrix => (List.range toWidth).filter fun dst =>
        state.1.any fun src => decide (matrix.getD (src * toWidth + dst) noEdge ≤ maxWeight)
    | none => []
  if next.isEmpty then (List.range toWidth, state.2 ++ [boundary]) else (next, state.2)

/-- The boundaries at which the reachable frontier dies. -/
def frontierCollapse (t : Trellis) : List ℕ :=
  (t.boundaries.foldl (frontierStep t) (List.range (t.widths.headD 0), [])).2

end Routers
