import Routers.Library.Frontier
import Routers.Transition.Snapshot

/-!
# Where an unreachable trip breaks

A trellis can be unreachable although every boundary is resolved.  The breaks of such a trellis
are found by following the present edges from layer to layer, whatever they cost, while the
solver goes by what the paths cost altogether.

## Main definitions

* `Trellis.Passable`, `Trellis.Live` — a boundary is crossed by present edges, or at a cost below
  `infW`.
* `NamesBreaks` — the breaks are there, in order, and the greedy ones.

## Main results

* `greedy_frontierCollapse` — **the breaks are the greedy cuts** of the present edges.
* `unreachable_names_breaks_iff` — **when an unreachable trellis names its breaks.**

## References

`src/libs/routers_transition/src/weigh/mod.rs` and
`src/libs/routers_transition/src/matcher/entity.rs`.
-/

namespace Routers

open Layered

namespace Trellis

/-- A path of present edges leads from layer `s` over boundary `b`. -/
def Passable (t : Trellis) (s b : ℕ) : Prop :=
  ∃ p, (t.graph.drop s).IsPath (b + 1 - s) p ∧
    (t.graph.drop s).Allowed (· ≤ maxWeight) (b + 1 - s) p

/-- A path that costs less than `infW` leads from layer `s` over boundary `b`. -/
def Live (t : Trellis) (s b : ℕ) : Prop :=
  ∃ p, (t.graph.drop s).IsPath (b + 1 - s) p ∧ (t.graph.drop s).cost p (b + 1 - s) < infW

variable {t : Trellis}

theorem Live.passable {s b : ℕ} (h : t.Live s b) : t.Passable s b := by
  obtain ⟨p, hp, hcost⟩ := h
  refine ⟨p, hp, fun k hk => ?_⟩
  have hedge := ((t.graph.drop s).edge_le_cost hk p).trans_lt hcost
  exact Nat.le_of_lt_succ hedge

theorem Passable.mono {s b c : ℕ} (h : t.Passable s b) (hcb : c ≤ b) : t.Passable s c := by
  obtain ⟨p, hp, hallowed⟩ := h
  exact ⟨p, fun k hk => hp k (by omega), fun k hk => hallowed k (by omega)⟩

theorem passable_iff {s n : ℕ} :
    t.Passable s (s + n) ↔ ∃ j, (t.graph.drop s).Reach (· ≤ maxWeight) (n + 1) j := by
  have hsub : s + n + 1 - s = n + 1 := by omega
  rw [Passable, hsub]
  constructor
  · rintro ⟨p, hp, hallowed⟩
    exact ⟨p (n + 1), p, hp, hallowed, rfl⟩
  · rintro ⟨j, p, hp, hallowed, -⟩
    exact ⟨p, hp, hallowed⟩

/-- A node path whose edges are all present. -/
def IsPresentPath (t : Trellis) (nodes : List ℕ) : Prop :=
  t.IsNodePath nodes ∧ ∀ k, k + 1 < t.layers →
    t.edgeWeight k (nodeAt nodes k) (nodeAt nodes (k + 1)) ≤ maxWeight

theorem graph_drop_zero (t : Trellis) : t.graph.drop 0 = t.graph := by
  simp only [Graph.drop, Nat.zero_add]

/-- A path through all layers, of a kind that its beginnings share, runs through where one
crosses every boundary. -/
theorem exists_path_iff (hv : t.Valid) (kind : ℕ → (ℕ → ℕ) → Prop)
    (hmono : ∀ n m p, n ≤ m → kind m p → kind n p) (hone : kind 0 fun _ => 0) :
    (∃ p, t.graph.IsPath (t.layers - 1) p ∧ kind (t.layers - 1) p) ↔
      ∀ b, 0 ≤ b → b < t.layers - 1 → ∃ p, t.graph.IsPath (b + 1) p ∧ kind (b + 1) p := by
  have hpos := hv.layers_pos
  constructor
  · rintro ⟨p, hp, hkind⟩ b - hb
    exact ⟨p, fun k hk => hp k (by omega), hmono _ _ p (by omega) hkind⟩
  · intro hcross
    rcases Nat.eq_zero_or_pos (t.layers - 1) with hsingle | hmore
    · refine ⟨fun _ => 0, fun k hk => hv.width_pos_of_lt (by omega), ?_⟩
      rw [hsingle]
      exact hone
    · have hlast := hcross (t.layers - 2) (Nat.zero_le _) (by omega)
      rwa [show t.layers - 2 + 1 = t.layers - 1 by omega] at hlast

/-- A present path runs through where every boundary is crossed from the first layer. -/
theorem exists_isPresentPath_iff (hv : t.Valid) :
    (∃ nodes, t.IsPresentPath nodes) ↔ ∀ b, 0 ≤ b → b < t.layers - 1 → t.Passable 0 b := by
  have hpos := hv.layers_pos
  have hpaths := exists_path_iff hv (t.graph.Allowed (· ≤ maxWeight))
    (fun n m p hnm h k hk => h k (by omega)) (fun k hk => absurd hk (Nat.not_lt_zero k))
  simp only [Passable, graph_drop_zero, Nat.sub_zero]
  rw [← hpaths]
  constructor
  · rintro ⟨nodes, hnodes, hpresent⟩
    exact ⟨nodeAt nodes, ((isNodePath_iff hpos).mp hnodes).2, fun k hk => hpresent k (by omega)⟩
  · rintro ⟨p, hp, hallowed⟩
    refine ⟨_, isNodePath_map hpos hp, fun k hk => ?_⟩
    rw [nodeAt_map p (by omega), nodeAt_map p hk]
    exact hallowed k (by omega)

/-- A path stays below `infW` where every boundary is crossed so from the first layer. -/
theorem not_allDead_iff (hv : t.Valid) :
    ¬ t.AllDead ↔ ∀ b, 0 ≤ b → b < t.layers - 1 → t.Live 0 b := by
  have hpos := hv.layers_pos
  have hpaths := exists_path_iff hv (fun n p => t.graph.cost p n < infW)
    (fun n m p hnm h => (t.graph.cost_mono hnm p).trans_lt h)
    ((hv.nodeRow_getD_le 0 0).trans_lt maxWeight_lt_infW)
  simp only [Live, graph_drop_zero, Nat.sub_zero, AllDead, not_forall, not_le]
  rw [← hpaths]
  constructor
  · rintro ⟨nodes, hnodes, hcost⟩
    rw [pathCost_lt_iff hv hnodes] at hcost
    exact ⟨nodeAt nodes, ((isNodePath_iff hpos).mp hnodes).2, hcost⟩
  · rintro ⟨p, hp, hcost⟩
    refine ⟨_, isNodePath_map hpos hp, ?_⟩
    rw [pathCost_map hv]
    exact (min_le_left _ _).trans_lt hcost

end Trellis

open Trellis

/-! ### The frontier -/

section Frontier

variable {t : Trellis} (hv : t.Valid) (hr : t.fullyResolved = true)
include hv hr

/-- A step goes on with the targets of the present edges, or starts anew where there are none. -/
theorem frontierStep_spec {b : ℕ} (hb : b + 1 < t.layers) {reachable : List ℕ}
    (hreachable : ∀ i ∈ reachable, i < t.width b) (breaks : List ℕ) : ∃ next : List ℕ,
      (∀ j, j ∈ next ↔ j < t.width (b + 1) ∧ ∃ i ∈ reachable, t.edgeWeight b i j ≤ maxWeight) ∧
      frontierStep t (reachable, breaks) b
        = if next.isEmpty then (List.range (t.width (b + 1)), breaks ++ [b])
          else (next, breaks) := by
  refine ⟨(List.range (t.width (b + 1))).filter fun dst => reachable.any fun src =>
    decide ((t.weights b).getD (src * t.width (b + 1) + dst) noEdge ≤ maxWeight), fun j => ?_, ?_⟩
  · rw [List.mem_filter, List.mem_range, List.any_eq_true]
    refine and_congr_right fun hj => exists_congr fun i => and_congr_right fun hi => ?_
    have hget := hv.getElem?_weights (transitions_eq hv hr hb) (hreachable i hi) hj
    rw [decide_eq_true_eq, List.getD_eq_getElem?_getD, hget, Option.getD_some]
  · rw [frontierStep, layer_eq hv hr hb]
    rfl

/-- The steps over the boundaries left, from those nodes of a layer that are reached from the
origin of the segment. -/
theorem foldl_frontierStep (m : ℕ) : ∀ {s n : ℕ} {reachable : List ℕ} (breaks : List ℕ),
    s + n + m + 1 = t.layers → (∀ c, s ≤ c → c < s + n → t.Passable s c) →
    (∀ j, j ∈ reachable ↔ (t.graph.drop s).Reach (· ≤ maxWeight) n j) → ∃ cuts,
      ((List.range' (s + n) m).foldl (frontierStep t) (reachable, breaks)).2 = breaks ++ cuts ∧
        Greedy t.Passable (t.layers - 1) s cuts := by
  induction m with
  | zero =>
    intro s n reachable breaks hlen hbefore _
    refine ⟨[], (List.append_nil _).symm, .whole fun b hle hlt => hbefore b hle (by omega)⟩
  | succ m ih =>
    intro s n reachable breaks hlen hbefore hreachable
    have hwidth : ∀ i ∈ reachable, i < t.width (s + n) := by
      intro i hi
      obtain ⟨p, hp, -, rfl⟩ := (hreachable i).mp hi
      exact hp n le_rfl
    obtain ⟨next, hnext, hstep⟩ := frontierStep_spec hv hr (b := s + n) (by omega) hwidth breaks
    -- the targets are what is reached over one boundary more
    have hreach : ∀ j, j ∈ next ↔ (t.graph.drop s).Reach (· ≤ maxWeight) (n + 1) j := by
      intro j
      rw [hnext, Graph.reach_succ]
      exact and_congr_right fun _ => exists_congr fun i => and_congr_left fun _ => hreachable i
    rw [List.range'_succ, List.foldl_cons, hstep]
    cases next with
    | nil =>
      have hnot : ¬ t.Passable s (s + n) := by
        rw [passable_iff]
        rintro ⟨j, hj⟩
        exact List.not_mem_nil ((hreach j).mpr hj)
      obtain ⟨cuts, hcuts, hgreedy⟩ := ih (s := s + n + 1) (n := 0) (breaks ++ [s + n]) (by omega)
        (fun c hle hlt => by omega) fun j => by rw [List.mem_range, Graph.reach_zero]
      refine ⟨(s + n) :: cuts, ?_, .cut (by omega) (by omega) hbefore hnot hgreedy⟩
      have happend : breaks ++ (s + n) :: cuts = breaks ++ [s + n] ++ cuts := by
        rw [List.append_assoc, List.singleton_append]
      rw [happend]
      exact hcuts
    | cons j next =>
      have hpass : t.Passable s (s + n) :=
        passable_iff.mpr ⟨j, (hreach j).mp List.mem_cons_self⟩
      refine ih (n := n + 1) breaks (by omega) (fun c hle hlt => ?_) hreach
      rcases Nat.lt_or_ge c (s + n) with hbelow | habove
      · exact hbefore c hle hbelow
      · obtain rfl : c = s + n := by omega
        exact hpass

/-- **The breaks of a fully resolved trellis are the greedy cuts** of its present edges. -/
theorem greedy_frontierCollapse :
    Greedy t.Passable (t.layers - 1) 0 (frontierCollapse t) := by
  have hpos := hv.layers_pos
  have htransitions := hv.transitions_length
  have hstart : ∀ j, j ∈ List.range (t.widths.headD 0) ↔
      (t.graph.drop 0).Reach (· ≤ maxWeight) 0 j := by
    intro j
    have hwidth : t.widths.headD 0 = (t.graph.drop 0).width 0 := by
      show t.widths.headD 0 = t.widths.getD (0 + 0) 0
      cases t.widths <;> rfl
    rw [List.mem_range, Graph.reach_zero, hwidth]
  obtain ⟨cuts, hcuts, hgreedy⟩ := foldl_frontierStep hv hr t.transitions.length (s := 0) (n := 0) []
    (by omega) (fun c _ hlt => absurd hlt (Nat.not_lt_zero c)) hstart
  rw [Nat.add_zero, ← List.range_eq_range', List.nil_append] at hcuts
  rw [frontierCollapse, boundaries, hcuts]
  exact hgreedy

end Frontier

/-! ### The names of the breaks -/

/-- The breaks of a trellis are there, in order, and each is the first boundary not crossed from
the layer behind the one before it. -/
structure NamesBreaks (cross : ℕ → ℕ → Prop) (t : Trellis) : Prop where
  ne_nil : frontierCollapse t ≠ []
  increasing : (frontierCollapse t).Pairwise (· < ·)
  greedy : Greedy cross (t.layers - 1) 0 (frontierCollapse t)

section Names

variable {t : Trellis} (hv : t.Valid) (hr : t.fullyResolved = true)
include hv hr

theorem frontierCollapse_eq_nil_iff :
    frontierCollapse t = [] ↔ ∃ nodes, t.IsPresentPath nodes := by
  rw [(greedy_frontierCollapse hv hr).eq_nil_iff, exists_isPresentPath_iff hv]

/-- Only dead trellises are unreachable, so none with a present path is where such a path always
leaves one that costs less than `infW`. -/
theorem unreachable_notPresent_iff :
    (ViterbiSolver.solve t = .error .unreachable → ¬ ∃ nodes, t.IsPresentPath nodes) ↔
      ((∃ nodes, t.IsPresentPath nodes) →
        ∃ nodes, t.IsNodePath nodes ∧ t.pathCost nodes < infW) := by
  have hdead : (∃ nodes, t.IsNodePath nodes ∧ t.pathCost nodes < infW) ↔ ¬ t.AllDead := by
    simp only [AllDead, not_forall, not_le, exists_prop]
  rw [ViterbiSolver.solve_unreachable_iff_allDead hv, hdead]
  tauto

theorem namesBreaks_passable_iff :
    NamesBreaks t.Passable t ↔ ¬ ∃ nodes, t.IsPresentPath nodes := by
  have hgreedy := greedy_frontierCollapse hv hr
  rw [← frontierCollapse_eq_nil_iff hv hr]
  exact ⟨fun h => h.ne_nil, fun h => ⟨h, hgreedy.pairwise, hgreedy⟩⟩

/-- The breaks of a dead trellis are those of the paths below `infW` exactly where these cross
what present edges cross, from every layer a segment starts from. -/
theorem namesBreaks_live_iff (hdead : t.AllDead) : NamesBreaks t.Live t ↔
    ∀ o, SegmentStart t.Passable (t.layers - 1) 0 o → ∀ b, o ≤ b → b < t.layers - 1 →
      t.Passable o b → t.Live o b := by
  have hgreedy := greedy_frontierCollapse hv hr
  rw [← hgreedy.restrict_iff (fun _ _ h => h.passable) fun _ _ _ h _ hcb => h.mono hcb]
  refine ⟨fun h => h.greedy, fun h => ⟨fun hnil => ?_, hgreedy.pairwise, h⟩⟩
  exact (not_allDead_iff hv).mpr (h.eq_nil_iff.mp hnil) hdead

end Names

variable {E P M R : Type} [DecidableEq E] [Inhabited E] [Geometry P] [Inhabited P]

omit [DecidableEq E] [Inhabited E] [Geometry P] in
theorem Matcher.disconnected_inj {trip : Trip E P} {breaks : List (Disconnected P)} {cuts : List ℕ}
    (h : Matcher.disconnected trip cuts = .disconnected breaks) : breaks = [] ↔ cuts = [] := by
  cases h
  exact List.map_eq_nil_iff

/-- **When a solve that finds a trip disconnected names a break.**  It does where boundaries
are left pending; where none is, the breaks are those of the trellis. -/
theorem Matcher.solve_names_iff {m : Matcher E P M R} {trip : Trip E P} (hinv : trip.Inv)
    {t : Trellis} (ht : trip.trellis = some t) :
    (∀ breaks, (m.solve trip).1 = .error (.disconnected breaks) → breaks ≠ []) ↔
      ((m.weighed trip t).fullyResolved = true →
        ViterbiSolver.solve (m.weighed trip t) = .error .unreachable →
          frontierCollapse (m.weighed trip t) ≠ []) := by
  rw [Matcher.solve_fst hinv ht, Matcher.outcome]
  cases hgaps : (m.weighed trip t).disconnections with
  | cons gap gaps =>
    have hpending : ¬ (m.weighed trip t).fullyResolved = true := fun hr => by
      rw [disconnections_eq_nil hr] at hgaps
      cases hgaps
    refine iff_of_true (fun breaks hbreaks hnil => ?_) fun hr => absurd hr hpending
    have hcuts := (disconnected_inj (Except.error.inj hbreaks)).mp hnil
    cases hcuts
  | nil =>
    have hr := fullyResolved_of_disconnections hgaps
    simp only [List.isEmpty_nil, Bool.not_true, Bool.false_eq_true, if_false, hr, true_implies]
    cases hsolve : ViterbiSolver.solve (m.weighed trip t) with
    | ok path => exact iff_of_true (fun _ h => by cases h) fun h => by cases h
    | error e =>
      cases e with
      | notResolved l => exact iff_of_true (fun _ h => by cases h) fun h => by cases h
      | unreachable =>
        constructor
        · intro h _ hnil
          exact h _ rfl (List.map_eq_nil_iff.mpr hnil)
        · intro h breaks hbreaks hnil
          exact h rfl ((disconnected_inj (Except.error.inj hbreaks)).mp hnil)

/-- **When an unreachable trellis names its breaks.**  Its breaks are in order and the greedy cuts
of the present edges, and there are none only where a path of present edges runs through that
costs too much.  They are the greedy cuts of the paths below `infW` as well where, in every
segment, these go as far as the present edges do.  What a solve of a trip reports names a break
under the condition on the trellis it has weighed. -/
theorem unreachable_names_breaks_iff (allowed : Matcher E P M R → Prop) :
    (∀ t : Trellis, t.Reachable → t.fullyResolved = true →
      ((ViterbiSolver.solve t = .error .unreachable → NamesBreaks t.Passable t) ↔
        ((∃ nodes, t.IsPresentPath nodes) →
          ∃ nodes, t.IsNodePath nodes ∧ t.pathCost nodes < infW)) ∧
      ((ViterbiSolver.solve t = .error .unreachable → NamesBreaks t.Live t) ↔
        (t.AllDead → ∀ o, SegmentStart t.Passable (t.layers - 1) 0 o → ∀ b, o ≤ b →
          b < t.layers - 1 → t.Passable o b → t.Live o b))) ∧
    ∀ (m : Matcher E P M R) (trip : Trip E P), Trip.Reached allowed trip →
      ∀ t, trip.trellis = some t →
        ((∀ breaks, (m.solve trip).1 = .error (.disconnected breaks) → breaks ≠ []) ↔
          ((m.weighed trip t).fullyResolved = true →
            (∃ nodes, (m.weighed trip t).IsPresentPath nodes) → ∃ nodes,
              (m.weighed trip t).IsNodePath nodes ∧ (m.weighed trip t).pathCost nodes < infW)) := by
  refine ⟨fun t ht hr => ⟨?_, ?_⟩, fun m trip h t ht => ?_⟩
  · rw [namesBreaks_passable_iff ht.valid hr]
    exact unreachable_notPresent_iff ht.valid hr
  · rw [ViterbiSolver.solve_unreachable_iff_allDead ht.valid]
    constructor
    · exact fun h hdead => (namesBreaks_live_iff ht.valid hr hdead).mp (h ⟨hr, hdead⟩)
    · exact fun h hdead => (namesBreaks_live_iff ht.valid hr hdead.2).mpr (h hdead.2)
  · have hvalid := m.weighed_valid h.inv ht
    rw [m.solve_names_iff h.inv ht]
    refine forall_congr' fun hr => ?_
    rw [← unreachable_notPresent_iff hvalid hr, ne_eq, frontierCollapse_eq_nil_iff hvalid hr]

/-- Three layers of one node, with no edge into the last one. -/
def gappedRow : Trellis := ⟨[1, 1, 1], [0, 0, 0], [.resolved [5], .resolved [infW]]⟩

theorem gappedRow_reachable : gappedRow.Reachable := by
  have hnew : Trellis.Reachable ⟨[1, 1, 1], [0, 0, 0], [.pending, .pending]⟩ :=
    .new (show Trellis.new [1, 1, 1] = .ok _ from rfl)
  have hfirst : Trellis.Reachable ⟨[1, 1, 1], [0, 0, 0], [.resolved [5], .pending]⟩ :=
    hnew.fillTransition (show Trellis.fillTransition _ 0 [5] = (.ok (), _) by decide)
  exact hfirst.fillTransition (show Trellis.fillTransition _ 1 [noEdge] = (.ok (), _) by decide)

/-- Two observations on either side of a gap in the road. -/
def gappedTrip : Trip ℕ Milestone :=
  ((roadMatcher brokenRoad).extend Trip.new [⟨⟨30⟩, 0⟩, ⟨⟨250⟩, 1⟩]).2

/-- The break of a row that no path runs through, and that of a trip. -/
theorem unreachable_names_breaks_gapped : NamesBreaks gappedRow.Passable gappedRow ∧
    ∀ breaks, ((roadMatcher brokenRoad).solve gappedTrip).1 = .error (.disconnected breaks) →
      breaks ≠ [] := by
  have hiff := unreachable_names_breaks_iff (· = roadMatcher brokenRoad)
  have hpending : (gappedTrip.trellis.map fun t =>
      ((roadMatcher brokenRoad).weighed gappedTrip t).fullyResolved) = some false := by
    decide +kernel
  obtain ⟨t, ht, hresolved⟩ := Option.map_eq_some_iff.mp hpending
  have hreached : Trip.Reached (· = roadMatcher brokenRoad) gappedTrip := .extend _ .new rfl
  refine ⟨(hiff.1 gappedRow gappedRow_reachable (by decide)).1.mpr ?_ (by decide),
    (hiff.2 _ gappedTrip hreached t ht).mpr fun hr => ?_⟩
  · rintro ⟨nodes, hnodes, hpresent⟩
    have hfirst := hnodes.nodeAt_lt (k := 1) (by decide)
    have hlast := hnodes.nodeAt_lt (k := 2) (by decide)
    have hedge := hpresent 1 (by decide)
    rw [Nat.lt_one_iff.mp hfirst, Nat.lt_one_iff.mp hlast] at hedge
    exact absurd hedge (by decide)
  · rw [hresolved] at hr
    cases hr

/-- Two layers of one node, with an edge between them that is dearer than a path may be. -/
def costlyPair : Trellis := ⟨[1, 1], [maxWeight, 0], [.resolved [1]]⟩

theorem costlyPair_reachable : costlyPair.Reachable := by
  have hnew : Trellis.Reachable ⟨[1, 1], [0, 0], [.pending]⟩ :=
    .new (show Trellis.new [1, 1] = .ok _ from rfl)
  have hnodes : Trellis.Reachable ⟨[1, 1], [maxWeight, 0], [.pending]⟩ :=
    hnew.fillNodes (show Trellis.fillNodes _ 0 [maxWeight] = (.ok (), _) by decide)
  exact hnodes.fillTransition (show Trellis.fillTransition _ 0 [1] = (.ok (), _) by decide)

/-- A matcher on the straight road that finds every candidate too far off. -/
def costlyMatcher : Matcher ℕ Milestone Unit Unit :=
  { roadMatcher straightRoad with
    generator := standardGenerator (fun point _ => edgesNear point) 50 fun _ => infW }

/-- **A path that costs too much has no break to name**, in a trellis and in a trip. -/
theorem costlyPair_names_no_break : costlyPair.Reachable ∧ costlyPair.fullyResolved = true ∧
    ViterbiSolver.solve costlyPair = .error .unreachable ∧ frontierCollapse costlyPair = [] ∧
    (costlyMatcher.solve (costlyMatcher.extend Trip.new [⟨⟨30⟩, 0⟩, ⟨⟨60⟩, 1⟩]).2).1
      = .error (.disconnected []) :=
  ⟨costlyPair_reachable, by decide, by decide, by decide, by decide +kernel⟩

end Routers
