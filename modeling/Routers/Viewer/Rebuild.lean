import Routers.Realtime.Matching
import Routers.Viewer.Store

/-!
# Rebuilding a trace across a cut

A trip is cut at its convergence layer once it has been emitted.  Its next emission starts
with the layer of the cut, without the geometry of the hop into it, for that was emitted
before.  The viewer replaces a layer as a whole, and so drops that geometry again: the trace
comes out as that of the uncut trip exactly if the hop has none.

## Main definitions

* `CollapsedPath.place` — the edge and the position picked at a layer.
* `VehicleTrace.Rebuilt` — two emissions merged in order are drawn as a single one.

## Main results

* `VehicleTrace.points_rebuild_iff` — layers replaced by ones of which the first has lost its
  path.
* `Matching.layers_cut` — the emissions of a cut trip beside that of the uncut one.
* `Matching.rebuilds_iff` — **the trace of a cut trip.**

## References

`src/libs/routers_viewer/src/bin/realtime/store.rs`, `src/libs/routers_realtime/src/event.rs` and
`src/libs/routers_realtime/bin/matcher.rs`.
-/

namespace Routers

open Std (ExtTreeMap)

variable {E P M R : Type}

/-! ### Layers replaced -/

namespace VehicleTrace

/-- The points of a map, oldest observation first. -/
def points (layers : ExtTreeMap ℤ (List P)) : List P := layers.toList.flatMap Prod.snd

/-- A layer as it comes first in an emission. -/
def withoutPath (layer : MatchedLayer E P) : MatchedLayer E P := { layer with path := [] }

variable {before rest post : List (MatchedLayer E P)} {w : MatchedLayer E P}

/-- Layers that replace some of those before, the first of them without its path, leave all as they
were but that path, and this too where a later layer has the timestamp. -/
theorem getElem?_rebuild (before : List (MatchedLayer E P))
    (hrest : ∀ layer ∈ rest, ∃ l ∈ w :: post, l.timestamp = layer.timestamp) (t : ℤ) :
    (insertAll (insertAll ∅ (before ++ rest)) (withoutPath w :: post))[t]?
      = if t = w.timestamp ∧ ∀ later ∈ post, later.timestamp ≠ w.timestamp then some [w.position]
        else (insertAll (∅ : ExtTreeMap ℤ (List P)) (before ++ w :: post))[t]? := by
  have hlookup : ∀ l : List (MatchedLayer E P), (insertAll (∅ : ExtTreeMap ℤ (List P)) l)[t]?
      = (l.reverse.find? fun layer => layer.timestamp = t).map MatchedLayer.segment := by
    intro l
    rw [getElem?_insertAll, ExtTreeMap.getElem?_empty, Option.or_none]
  rw [getElem?_insertAll, hlookup, hlookup]
  split
  · rename_i h
    obtain ⟨rfl, hnone⟩ := h
    have hpost : post.reverse.find? (fun layer => layer.timestamp = w.timestamp) = none := by
      simpa [List.find?_eq_none] using hnone
    simp [hpost, withoutPath, MatchedLayer.segment]
  · rename_i h
    simp only [List.reverse_append, List.reverse_cons, List.find?_append, List.find?_singleton]
    cases hpost : post.reverse.find? fun layer => layer.timestamp = t with
    | some later => rfl
    | none =>
      have hnone : ∀ later ∈ post, later.timestamp ≠ t := by
        simpa [List.find?_eq_none] using hpost
      have ht : w.timestamp ≠ t := by
        rintro rfl
        exact h ⟨rfl, hnone⟩
      -- nothing of what is replaced is of this observation
      have hrestNone : rest.reverse.find? (fun layer => layer.timestamp = t) = none := by
        rw [List.find?_eq_none]
        intro layer hlayer
        obtain ⟨l, hl, htl⟩ := hrest layer (List.mem_reverse.mp hlayer)
        rw [decide_eq_true_eq, ← htl]
        rcases List.mem_cons.mp hl with rfl | hl
        exacts [ht, hnone l hl]
      simp [withoutPath, ht, hrestNone]

/-- A map with one segment cut down to its position. -/
def cutAt (layers : ExtTreeMap ℤ (List P)) (t : ℤ) (position : P) : ExtTreeMap ℤ (List P) :=
  layers.map fun t' segment => if t' = t then [position] else segment

/-- The path of a segment is missed, if it has any. -/
theorem points_cutAt_iff {layers : ExtTreeMap ℤ (List P)} {t : ℤ} {path : List P} {position : P}
    (h : layers[t]? = some (path ++ [position])) :
    points (cutAt layers t position) = points layers ↔ path = [] := by
  have hentries : ∀ entry ∈ layers.toList,
      (if entry.1 = t then [position] else entry.2) = entry.2 ∨
        (if entry.1 = t then [position] else entry.2) = [position] ∧
          entry.2 = path ++ [position] := by
    rintro ⟨t', segment⟩ hentry
    rw [ExtTreeMap.mem_toList_iff_getElem?_eq_some] at hentry
    by_cases ht : t' = t
    · rw [ht, h, Option.some_inj] at hentry
      exact Or.inr ⟨if_pos ht, hentry.symm⟩
    · exact Or.inl (if_neg ht)
  simp only [points, cutAt, ExtTreeMap.toList_map, List.flatMap_map]
  constructor
  · -- by the number of points
    intro heq
    by_contra hpath
    have hle : ∀ entry ∈ layers.toList,
        (if entry.1 = t then [position] else entry.2).length ≤ entry.2.length := by
      intro entry hentry
      rcases hentries entry hentry with hcut | ⟨hcut, hsegment⟩
      · rw [hcut]
      · rw [hcut, hsegment, List.length_append]
        exact Nat.le_add_left _ _
    have hlt : ∃ entry ∈ layers.toList,
        (if entry.1 = t then [position] else entry.2).length < entry.2.length := by
      refine ⟨(t, path ++ [position]), ExtTreeMap.mem_toList_iff_getElem?_eq_some.mpr h, ?_⟩
      simpa [List.length_pos_iff] using hpath
    have hlength := congrArg List.length heq
    rw [List.length_flatMap, List.length_flatMap] at hlength
    exact absurd hlength (Nat.ne_of_lt (List.sum_lt_sum _ _ hle hlt))
  · intro hpath
    refine List.flatMap_congr fun entry hentry => ?_
    rcases hentries entry hentry with hcut | ⟨hcut, hsegment⟩
    · exact hcut
    · rw [hcut, hsegment, hpath]
      rfl

/-- **Layers replaced by ones of which the first has lost its path** show the same exactly if it had
none, or if a later layer is of the same observation. -/
theorem points_rebuild_iff
    (hrest : ∀ layer ∈ rest, ∃ l ∈ w :: post, l.timestamp = layer.timestamp) :
    points (insertAll (insertAll ∅ (before ++ rest)) (withoutPath w :: post))
      = points (insertAll ∅ (before ++ w :: post)) ↔
      w.path = [] ∨ ∃ later ∈ post, later.timestamp = w.timestamp := by
  have hget := getElem?_rebuild before hrest
  by_cases hlater : ∃ later ∈ post, later.timestamp = w.timestamp
  · refine iff_of_true ?_ (Or.inr hlater)
    obtain ⟨later, hmem, heq⟩ := hlater
    rw [ExtTreeMap.ext_getElem? fun t => (hget t).trans (if_neg fun h => h.2 later hmem heq)]
  · have hnone : ∀ later ∈ post, later.timestamp ≠ w.timestamp := fun later hmem heq =>
      hlater ⟨later, hmem, heq⟩
    have hw : (insertAll (∅ : ExtTreeMap ℤ (List P)) (before ++ w :: post))[w.timestamp]?
        = some (w.path ++ [w.position]) := by
      have hpost : post.reverse.find? (fun layer => layer.timestamp = w.timestamp) = none := by
        simpa [List.find?_eq_none] using hnone
      rw [getElem?_insertAll, List.reverse_append, List.reverse_cons]
      simp [hpost, MatchedLayer.segment]
    have hcut : insertAll (insertAll ∅ (before ++ rest)) (withoutPath w :: post)
        = cutAt (insertAll ∅ (before ++ w :: post)) w.timestamp w.position := by
      refine ExtTreeMap.ext_getElem? fun t => ?_
      rw [hget, cutAt, ExtTreeMap.getElem?_map]
      by_cases ht : t = w.timestamp
      · rw [if_pos ⟨ht, hnone⟩, ht, hw, Option.map_some, if_pos rfl]
      · rw [if_neg fun h => ht h.1]
        simp only [ht, if_false, Option.map_id_fun', id]
    rw [hcut, points_cutAt_iff hw, or_iff_left hlater]

/-- Nothing is left of layers that are replaced. -/
theorem insertAll_insertAll {l l' : List (MatchedLayer E P)}
    (h : ∀ layer ∈ l, ∃ layer' ∈ l', layer'.timestamp = layer.timestamp) :
    insertAll (insertAll ∅ l) l' = insertAll (∅ : ExtTreeMap ℤ (List P)) l' := by
  refine ExtTreeMap.ext_getElem? fun t => ?_
  rw [getElem?_insertAll, getElem?_insertAll _ l']
  cases hfind : l'.reverse.find? fun layer => layer.timestamp = t with
  | some layer' => rfl
  | none =>
    rw [getElem?_insertAll]
    have hnone : l.reverse.find? (fun layer => layer.timestamp = t) = none := by
      rw [List.find?_eq_none] at hfind ⊢
      intro layer hlayer
      obtain ⟨layer', hlayer', ht⟩ := h layer (List.mem_reverse.mp hlayer)
      rw [← ht]
      exact hfind layer' (List.mem_reverse.mpr hlayer')
    rw [hnone]
    rfl

/-- The observations of a map into which layers have gone. -/
theorem mem_of_insertAll {layers : ExtTreeMap ℤ (List P)} {diff : MatchedDiff E P} {T : Finset ℤ}
    (hlayers : ∀ t, layers[t]?.isSome → t ∈ T) (hdiff : ∀ layer ∈ diff.layers, layer.timestamp ∈ T)
    (t : ℤ) (ht : (insertAll layers diff.layers)[t]?.isSome) : t ∈ T := by
  rw [getElem?_insertAll, Option.isSome_or, Bool.or_eq_true] at ht
  obtain ht | ht := ht
  · obtain ⟨layer, hlayer, rfl⟩ := (MatchedDiff.isSome_segment_iff diff t).mp ht
    exact hdiff layer hlayer
  · exact hlayers t ht

/-- Nothing is trimmed of a trace whose observations the capacity holds. -/
theorem layers_merge {trace : VehicleTrace P} {diff : MatchedDiff E P} {T : Finset ℤ} {capacity : ℕ}
    (hcapacity : T.card ≤ capacity) (htrace : ∀ t, trace.layers[t]?.isSome → t ∈ T)
    (hdiff : ∀ layer ∈ diff.layers, layer.timestamp ∈ T) (now : ℕ) :
    (trace.merge diff capacity now).layers = insertAll trace.layers diff.layers :=
  trim_of_le ((size_le_card (mem_of_insertAll htrace hdiff)).trans hcapacity)

/-- A viewer that merges two emissions in order draws what it draws of a single one. -/
def Rebuilt (capacity : ℕ) (first second whole : MatchedDiff E P) : Prop :=
  ∀ now₁ now₂ now₃,
    (((VehicleTrace.new now₁).merge first capacity now₂).merge second capacity now₃).flattened
      = ((VehicleTrace.new now₁).merge whole capacity now₂).flattened

/-- Traces that the capacity holds are the layers inserted. -/
theorem rebuilt_iff {capacity : ℕ} {first second whole : MatchedDiff E P} {T : Finset ℤ}
    (hcapacity : T.card ≤ capacity) (hfirst : ∀ layer ∈ first.layers, layer.timestamp ∈ T)
    (hsecond : ∀ layer ∈ second.layers, layer.timestamp ∈ T)
    (hwhole : ∀ layer ∈ whole.layers, layer.timestamp ∈ T) :
    Rebuilt capacity first second whole ↔
      points (insertAll (insertAll ∅ first.layers) second.layers)
        = points (insertAll ∅ whole.layers) := by
  have hnew : ∀ t, (∅ : ExtTreeMap ℤ (List P))[t]?.isSome → t ∈ T := by
    intro t ht
    simp at ht
  have honce : ∀ now₁ now₂, ((new now₁).merge first capacity now₂).layers
      = insertAll ∅ first.layers := fun now₁ now₂ => layers_merge hcapacity hnew hfirst now₂
  have htwice : ∀ now₁ now₂ now₃,
      (((new now₁).merge first capacity now₂).merge second capacity now₃).layers
        = insertAll (insertAll ∅ first.layers) second.layers := by
    intro now₁ now₂ now₃
    rw [layers_merge hcapacity ?_ hsecond, honce]
    rw [honce]
    exact mem_of_insertAll hnew hfirst
  have hall : ∀ now₁ now₂, ((new now₁).merge whole capacity now₂).layers
      = insertAll ∅ whole.layers := fun now₁ now₂ => layers_merge hcapacity hnew hwhole now₂
  have hpoints : ∀ trace : VehicleTrace P, trace.flattened = points trace.layers := fun _ => rfl
  simp only [Rebuilt, hpoints, htwice, hall, forall_const]

end VehicleTrace

/-! ### A trip that is cut -/

/-- The edge and the position picked at a layer. -/
def CollapsedPath.place (collapsed : CollapsedPath E P) (k : ℕ) : Option (Edge E × P) :=
  (collapsed.route[k]?.bind collapsed.candidates.candidate).map fun c => (c.edge, c.position)

theorem CollapsedPath.place_eq (collapsed : CollapsedPath E P) (k : ℕ) :
    collapsed.place k = (collapsed.picked k).map fun anchor => (anchor.1, anchor.2.1) := by
  rw [place, picked, Option.map_map]
  rfl

/-- A later layer is of an observation exactly if a later observation has its timestamp. -/
theorem exists_later_iff {before post : List (MatchedLayer E P)} {w : MatchedLayer E P}
    {origins : List (Origin P)} {c : ℕ} (hlength : before.length = c)
    (hstamps : (before ++ w :: post).map MatchedLayer.timestamp = origins.map Origin.timestamp) :
    (∃ later ∈ post, later.timestamp = w.timestamp) ↔
      ∃ later, c < later ∧ ∃ origin origin', origins[c]? = some origin ∧
        origins[later]? = some origin' ∧ origin'.timestamp = origin.timestamp := by
  have hstamp : ∀ k : ℕ, ((before ++ w :: post)[k]?).map MatchedLayer.timestamp
      = origins[k]?.map Origin.timestamp := by
    intro k
    rw [← List.getElem?_map, ← List.getElem?_map, hstamps]
  have hw : (before ++ w :: post)[c]? = some w := by
    rw [List.getElem?_append_right (by omega), hlength, Nat.sub_self]
    rfl
  have hpost : ∀ i : ℕ, (before ++ w :: post)[c + 1 + i]? = post[i]? := by
    intro i
    rw [List.getElem?_append_right (by omega), hlength,
      show c + 1 + i - c = i + 1 by omega, List.getElem?_cons_succ]
  obtain ⟨origin, horigin, ht⟩ := Option.map_eq_some_iff.mp
    ((hstamp c).symm.trans (congrArg (Option.map MatchedLayer.timestamp) hw))
  constructor
  · rintro ⟨later, hmem, heq⟩
    obtain ⟨i, hi⟩ := List.getElem?_of_mem hmem
    obtain ⟨origin', horigin', ht'⟩ := Option.map_eq_some_iff.mp
      ((hstamp (c + 1 + i)).symm.trans
        (congrArg (Option.map MatchedLayer.timestamp) ((hpost i).trans hi)))
    exact ⟨c + 1 + i, by omega, origin, origin', horigin, horigin', by rw [ht', ht, heq]⟩
  · rintro ⟨k, hk, origin₁, origin', horigin₁, horigin', heq⟩
    rw [horigin, Option.some_inj] at horigin₁
    subst horigin₁
    obtain ⟨i, rfl⟩ : ∃ i, k = c + 1 + i := ⟨k - (c + 1), by omega⟩
    obtain ⟨later, hi, ht'⟩ := Option.map_eq_some_iff.mp
      ((hstamp (c + 1 + i)).trans (congrArg (Option.map Origin.timestamp) horigin'))
    rw [hpost] at hi
    exact ⟨later, List.mem_of_getElem? hi, by rw [ht', heq, ht]⟩

namespace Matching

variable [DecidableEq E] [Inhabited E] [Geometry P] [Inhabited P] [DecidableEq P]

/-- An emission has the timestamps of its trip. -/
theorem timestamps_emit (s : Matching E P M R) {trip after : Trip E P}
    (h : Trip.Reached (· = s.matcher) trip) {solution : CollapsedPath E P}
    (hsnapshot : s.matcher.snapshot trip = (.ok solution, after)) :
    (s.emit solution trip).layers.map MatchedLayer.timestamp
      = trip.origins.map Origin.timestamp := by
  obtain ⟨t, path, solves, -⟩ := Matcher.solution_of_snapshot s.deterministic h hsnapshot
  exact solves.timestamps_new 0

section Cut

variable (s : Matching E P M R) {trip solved : Trip E P}
  (h : Trip.Reached (· = s.matcher) trip) {first : CollapsedPath E P}
  (hfirst : s.matcher.snapshot trip = (.ok first, solved)) (fresh : List (Origin P))
  {second whole : CollapsedPath E P} {after after' : Trip E P}
  (hsecond : s.matcher.snapshot (s.matcher.pushAll (Matcher.cutBehind solved) fresh)
    = (.ok second, after))
  (hwhole : s.matcher.snapshot (s.matcher.pushAll solved fresh) = (.ok whole, after'))
include h hfirst hsecond hwhole

omit [DecidableEq P] hsecond in
/-- The trip that goes on uncut is solved. -/
theorem solution_whole :
    ∃ t path, s.matcher.Solution (s.matcher.pushAll solved fresh) t path whole := by
  obtain ⟨hreached, -⟩ := Matcher.reached_solved h hfirst
  have hgrown := (s.matcher.pushAll_spec s.deterministic.generator fresh hreached).1
  obtain ⟨t, path, solves, -⟩ := Matcher.solution_of_snapshot s.deterministic hgrown hwhole
  exact ⟨t, path, solves⟩

omit [DecidableEq P] hwhole in
/-- The trip that goes on behind the cut is solved. -/
theorem solution_second : ∃ t path,
    s.matcher.Solution (s.matcher.pushAll (Matcher.cutBehind solved) fresh) t path second := by
  obtain ⟨hreached, -⟩ := Matcher.reached_solved h hfirst
  have hleft := (s.matcher.pushAll_spec s.deterministic.generator fresh
    (Matcher.reached_cutBehind hreached)).1
  obtain ⟨t, path, solves, -⟩ := Matcher.solution_of_snapshot s.deterministic hleft hsecond
  exact ⟨t, path, solves⟩

omit hsecond in
/-- Through the convergence layer an emission stands. -/
theorem getElem?_layers_frontier {c : ℕ} (hc : Matcher.convergence solved = .ok (some c)) {k : ℕ}
    (hk : k ≤ c) :
    (s.emit first trip).layers[k]?
      = (s.emit whole (s.matcher.pushAll solved fresh)).layers[k]? := by
  obtain ⟨t, path, s₁, hlt, -⟩ := Matcher.convergence_spec s.deterministic h hfirst hc
  obtain ⟨hreached, hsolved⟩ := Matcher.reached_solved h hfirst
  have horigins := (s.matcher.pushAll_spec s.deterministic.generator fresh hreached).2
  obtain ⟨t₃, path₃, s₃⟩ := s.solution_whole h hfirst fresh hwhole
  have hpicked : ∀ i ≤ c, first.picked i = whole.picked i := fun i hi =>
    Matcher.picked_frontier s.deterministic h hfirst fresh hc hwhole hi
  refine s₁.getElem?_new_congr s₃ 0 (by omega) ?_ (hpicked k hk) Iff.rfl
    fun _ => hpicked (k - 1) (by omega)
  rw [horigins, hsolved, List.getElem?_append_left (by omega)]

/-- Behind the convergence layer a trip that is cut is emitted as the uncut one. -/
theorem tail_layers_cut {c : ℕ} (hc : Matcher.convergence solved = .ok (some c))
    (hplace : second.place 0 = whole.place c) :
    (s.emit second (s.matcher.pushAll (Matcher.cutBehind solved) fresh)).layers.tail
      = (s.emit whole (s.matcher.pushAll solved fresh)).layers.drop (c + 1) := by
  obtain ⟨horigins, hpicks⟩ := Matcher.picked_cut s.deterministic h hfirst fresh s.priced hc hwhole
    hsecond (by rw [← CollapsedPath.place_eq, ← CollapsedPath.place_eq, hplace])
  obtain ⟨t₂, path₂, s₂⟩ := s.solution_second h hfirst fresh hsecond
  obtain ⟨t₃, path₃, s₃⟩ := s.solution_whole h hfirst fresh hwhole
  have hlen : (s.emit whole (s.matcher.pushAll solved fresh)).layers.length
      = (s.matcher.pushAll solved fresh).origins.length := s₃.length_new 0
  have hlen' : (s.emit second (s.matcher.pushAll (Matcher.cutBehind solved) fresh)).layers.length
      = (s.matcher.pushAll solved fresh).origins.length - c :=
    (s₂.length_new 0).trans (by rw [horigins, List.length_drop])
  refine List.ext_getElem? fun k => ?_
  rw [List.getElem?_tail, List.getElem?_drop, Nat.add_right_comm]
  by_cases hk : c + k + 1 < (s.matcher.pushAll solved fresh).origins.length
  · refine s₂.getElem?_new_congr s₃ 0 ?_ ?_ ?_ (by omega) fun _ => ?_
    · rw [horigins, List.length_drop]
      omega
    · rw [horigins, List.getElem?_drop, Nat.add_assoc]
    · exact hpicks (k + 1) (by omega)
    · exact hpicks k (by omega)
  · rw [List.getElem?_eq_none (by omega), List.getElem?_eq_none (by omega)]

/-- The layer of the cut is emitted as before, but for its path. -/
theorem head?_layers_cut {c : ℕ} (hc : Matcher.convergence solved = .ok (some c))
    (hplace : second.place 0 = whole.place c) :
    ∃ w, (s.emit whole (s.matcher.pushAll solved fresh)).layers[c]? = some w ∧
      (s.emit second (s.matcher.pushAll (Matcher.cutBehind solved) fresh)).layers.head?
        = some (VehicleTrace.withoutPath w) ∧
      w.path = if c = 0 then [] else first.hopGeometry (c - 1) s.network := by
  obtain ⟨horigins, hpicks⟩ := Matcher.picked_cut s.deterministic h hfirst fresh s.priced hc hwhole
    hsecond (by rw [← CollapsedPath.place_eq, ← CollapsedPath.place_eq, hplace])
  obtain ⟨t, path, s₁, hlt, -⟩ := Matcher.convergence_spec s.deterministic h hfirst hc
  obtain ⟨hreached, hsolved⟩ := Matcher.reached_solved h hfirst
  have hgrownOrigins := (s.matcher.pushAll_spec s.deterministic.generator fresh hreached).2
  obtain ⟨t₂, path₂, s₂⟩ := s.solution_second h hfirst fresh hsecond
  obtain ⟨t₃, path₃, s₃⟩ := s.solution_whole h hfirst fresh hwhole
  have hlt' : c < (s.matcher.pushAll solved fresh).origins.length := by
    rw [hgrownOrigins, List.length_append, hsolved]
    omega
  obtain ⟨origin₁, anchor₁, -, -, hw₁⟩ := s₁.getElem?_new 0 hlt
  obtain ⟨origin, anchor, ho, ha, hw⟩ := s₃.getElem?_new 0 hlt'
  obtain ⟨origin', anchor', ho', ha', hw'⟩ := s₂.getElem?_new 0 (k := 0)
    (by rw [horigins, List.length_drop]; omega)
  rw [horigins, List.getElem?_drop, Nat.add_zero, ho, Option.some_inj] at ho'
  rw [hpicks 0 (by omega), Nat.add_zero, ha, Option.some_inj] at ha'
  subst ho' ha'
  have hsame := hw₁.symm.trans
    ((s.getElem?_layers_frontier h hfirst fresh hwhole hc le_rfl).trans hw)
  rw [Option.some_inj, MatchedLayer.mk.injEq] at hsame
  exact ⟨_, hw, List.head?_eq_getElem?.trans hw', hsame.2.2.2.symm⟩

/-- The layers of the two emissions of a trip that is cut, beside those of the uncut one. -/
theorem layers_cut {c : ℕ} (hc : Matcher.convergence solved = .ok (some c))
    (hplace : second.place 0 = whole.place c) :
    ∃ before rest post w,
      (s.emit first trip).layers = before ++ rest ∧
      (s.emit second (s.matcher.pushAll (Matcher.cutBehind solved) fresh)).layers
        = VehicleTrace.withoutPath w :: post ∧
      (s.emit whole (s.matcher.pushAll solved fresh)).layers = before ++ w :: post ∧
      before.length = c ∧
      w.path = if c = 0 then [] else first.hopGeometry (c - 1) s.network := by
  obtain ⟨w, hw, hhead, hpath⟩ := s.head?_layers_cut h hfirst fresh hsecond hwhole hc hplace
  have htail := s.tail_layers_cut h hfirst fresh hsecond hwhole hc hplace
  have hfrontier := fun k (hk : k ≤ c) => s.getElem?_layers_frontier h hfirst fresh hwhole hc hk
  generalize (s.emit first trip).layers = A at *
  generalize (s.emit second (s.matcher.pushAll (Matcher.cutBehind solved) fresh)).layers = B at *
  generalize (s.emit whole (s.matcher.pushAll solved fresh)).layers = W at *
  obtain ⟨hlt, hget⟩ := List.getElem?_eq_some_iff.mp hw
  have htake : A.take c = W.take c := by
    refine List.ext_getElem? fun k => ?_
    rw [List.getElem?_take, List.getElem?_take]
    split
    · exact hfrontier k (by omega)
    · rfl
  refine ⟨W.take c, A.drop c, W.drop (c + 1), w, ?_, ?_, ?_, ?_, hpath⟩
  · rw [← htake, List.take_append_drop]
  · rw [← htail]
    exact (List.cons_head?_tail hhead).symm
  · rw [← hget, List.cons_getElem_drop_succ, List.take_append_drop]
  · rw [List.length_take]
    omega

/-- The observations of both emissions are those of the uncut trip. -/
theorem timestamp_mem :
    (∀ layer ∈ (s.emit first trip).layers,
      ∃ layer' ∈ (s.emit whole (s.matcher.pushAll solved fresh)).layers,
        layer'.timestamp = layer.timestamp) ∧
    ∀ layer ∈ (s.emit second (s.matcher.pushAll (Matcher.cutBehind solved) fresh)).layers,
      ∃ layer' ∈ (s.emit whole (s.matcher.pushAll solved fresh)).layers,
        layer'.timestamp = layer.timestamp := by
  obtain ⟨hreached, hsolved⟩ := Matcher.reached_solved h hfirst
  have hcut := Matcher.reached_cutBehind hreached
  obtain ⟨hgrown, horigins⟩ := s.matcher.pushAll_spec s.deterministic.generator fresh hreached
  obtain ⟨hleft, horigins'⟩ := s.matcher.pushAll_spec s.deterministic.generator fresh hcut
  have hof : ∀ {l l' : List (MatchedLayer E P)} {o o' : List (Origin P)},
      l.map MatchedLayer.timestamp = o.map Origin.timestamp →
      l'.map MatchedLayer.timestamp = o'.map Origin.timestamp → o ⊆ o' →
      ∀ layer ∈ l, ∃ layer' ∈ l', layer'.timestamp = layer.timestamp := by
    intro l l' o o' hl hl' hsub layer hlayer
    have hmem := List.mem_map_of_mem (f := MatchedLayer.timestamp) hlayer
    rw [hl] at hmem
    have hmem' := List.map_subset Origin.timestamp hsub hmem
    rw [← hl'] at hmem'
    exact List.mem_map.mp hmem'
  have hwholeStamps := s.timestamps_emit hgrown hwhole
  refine ⟨hof (s.timestamps_emit h hfirst) hwholeStamps ?_,
    hof (s.timestamps_emit hleft hsecond) hwholeStamps ?_⟩
  · rw [horigins, hsolved]
    exact List.subset_append_left _ _
  · rw [horigins, horigins', Matcher.origins_cutBehind]
    exact List.append_subset.mpr ⟨fun origin ho =>
      List.mem_append_left _ (List.mem_of_mem_drop ho), List.subset_append_right _ _⟩

/-- Nothing is trimmed where the capacity holds the observations of the uncut trip. -/
theorem rebuilt_iff_points {capacity : ℕ}
    (hcapacity : ((s.matcher.pushAll solved fresh).origins.map Origin.timestamp).toFinset.card
      ≤ capacity) :
    VehicleTrace.Rebuilt capacity (s.emit first trip)
        (s.emit second (s.matcher.pushAll (Matcher.cutBehind solved) fresh))
        (s.emit whole (s.matcher.pushAll solved fresh)) ↔
    VehicleTrace.points (VehicleTrace.insertAll
        (VehicleTrace.insertAll ∅ (s.emit first trip).layers)
        (s.emit second (s.matcher.pushAll (Matcher.cutBehind solved) fresh)).layers)
      = VehicleTrace.points
        (VehicleTrace.insertAll ∅ (s.emit whole (s.matcher.pushAll solved fresh)).layers) := by
  obtain ⟨hfirstMem, hsecondMem⟩ := s.timestamp_mem h hfirst fresh hsecond hwhole
  have hgrown := (s.matcher.pushAll_spec s.deterministic.generator fresh
    (Matcher.reached_solved h hfirst).1).1
  have hmem : ∀ layer ∈ (s.emit whole (s.matcher.pushAll solved fresh)).layers, layer.timestamp
      ∈ ((s.matcher.pushAll solved fresh).origins.map Origin.timestamp).toFinset := by
    intro layer hlayer
    rw [List.mem_toFinset, ← s.timestamps_emit hgrown hwhole]
    exact List.mem_map_of_mem hlayer
  have hamong : ∀ l : List (MatchedLayer E P),
      (∀ layer ∈ l, ∃ layer' ∈ (s.emit whole (s.matcher.pushAll solved fresh)).layers,
        layer'.timestamp = layer.timestamp) → ∀ layer ∈ l, layer.timestamp
      ∈ ((s.matcher.pushAll solved fresh).origins.map Origin.timestamp).toFinset := by
    intro l hl layer hlayer
    obtain ⟨layer', hlayer', ht⟩ := hl layer hlayer
    exact ht ▸ hmem layer' hlayer'
  exact VehicleTrace.rebuilt_iff hcapacity (hamong _ hfirstMem) (hamong _ hsecondMem) hmem

/-- The points of a trip that is cut at its convergence layer. -/
theorem points_cut_iff {c : ℕ} (hc : Matcher.convergence solved = .ok (some c))
    (hplace : second.place 0 = whole.place c) :
    VehicleTrace.points (VehicleTrace.insertAll
        (VehicleTrace.insertAll ∅ (s.emit first trip).layers)
        (s.emit second (s.matcher.pushAll (Matcher.cutBehind solved) fresh)).layers)
      = VehicleTrace.points
        (VehicleTrace.insertAll ∅ (s.emit whole (s.matcher.pushAll solved fresh)).layers) ↔
    c = 0 ∨ first.hopGeometry (c - 1) s.network = [] ∨
      ∃ later, c < later ∧
        ∃ origin origin', (s.matcher.pushAll solved fresh).origins[c]? = some origin ∧
          (s.matcher.pushAll solved fresh).origins[later]? = some origin' ∧
            origin'.timestamp = origin.timestamp := by
  obtain ⟨hreached, hsolved⟩ := Matcher.reached_solved h hfirst
  obtain ⟨hgrown, hgrownOrigins⟩ :=
    s.matcher.pushAll_spec s.deterministic.generator fresh hreached
  obtain ⟨before, rest, post, w, hA, hB, hW, hlength, hpath⟩ :=
    s.layers_cut h hfirst fresh hsecond hwhole hc hplace
  have hstamps := s.timestamps_emit h hfirst
  have hstamps' := s.timestamps_emit hgrown hwhole
  rw [hA] at hstamps
  rw [hW] at hstamps'
  have hrest : ∀ layer ∈ rest, ∃ l ∈ w :: post, l.timestamp = layer.timestamp := by
    have hle : (before ++ rest).map MatchedLayer.timestamp
        <+: (before ++ w :: post).map MatchedLayer.timestamp := by
      rw [hstamps, hstamps', hgrownOrigins, hsolved, List.map_append]
      exact List.prefix_append _ _
    rw [List.map_append, List.map_append, List.prefix_append_right_inj] at hle
    intro layer hlayer
    exact List.mem_map.mp (hle.subset (List.mem_map_of_mem hlayer))
  have hw : w.path = [] ↔ c = 0 ∨ first.hopGeometry (c - 1) s.network = [] := by
    rw [hpath]
    by_cases hzero : c = 0 <;> simp [hzero]
  rw [hA, hB, hW, VehicleTrace.points_rebuild_iff hrest, hw, exists_later_iff hlength hstamps',
    or_assoc]

/-- **The trace of a cut trip** is that of the uncut one exactly if the hop into the convergence
layer has no geometry, or a later observation has the timestamp of that layer's. -/
theorem rebuilds_iff
    (hplace : ∀ k < (Matcher.cutBehind solved).layers,
      second.place k = whole.place (solved.layers - (Matcher.cutBehind solved).layers + k))
    {capacity : ℕ}
    (hcapacity : ((s.matcher.pushAll solved fresh).origins.map Origin.timestamp).toFinset.card
      ≤ capacity) :
    VehicleTrace.Rebuilt capacity (s.emit first trip)
        (s.emit second (s.matcher.pushAll (Matcher.cutBehind solved) fresh))
        (s.emit whole (s.matcher.pushAll solved fresh)) ↔
    ∀ c, Matcher.convergence solved = .ok (some c) →
      c = 0 ∨ first.hopGeometry (c - 1) s.network = [] ∨
        ∃ later, c < later ∧
          ∃ origin origin', (s.matcher.pushAll solved fresh).origins[c]? = some origin ∧
            (s.matcher.pushAll solved fresh).origins[later]? = some origin' ∧
              origin'.timestamp = origin.timestamp := by
  rw [s.rebuilt_iff_points h hfirst fresh hsecond hwhole hcapacity]
  by_cases hcut : ∃ c, Matcher.convergence solved = .ok (some c)
  · obtain ⟨c, hc⟩ := hcut
    obtain ⟨t, path, s₁, hlt, -⟩ := Matcher.convergence_spec s.deterministic h hfirst hc
    have hlayers : solved.layers = trip.origins.length := by
      rw [Trip.layers, (Matcher.reached_solved h hfirst).2]
    have hleft : (Matcher.cutBehind solved).layers = solved.layers - c := by
      rw [Matcher.cutBehind, hc]
      dsimp only
      rw [Trip.layers, Trip.origins_tail, List.length_drop, ← Trip.layers]
      omega
    have hplace₀ : second.place 0 = whole.place c := by
      rw [hplace 0 (by omega)]
      congr 1
      omega
    rw [s.points_cut_iff h hfirst fresh hsecond hwhole hc hplace₀]
    constructor
    · intro hkept c' hc'
      rw [hc, Except.ok.injEq, Option.some_inj] at hc'
      exact hc' ▸ hkept
    · intro hkept
      exact hkept c hc
  · -- a trip that has not converged goes on whole
    refine iff_of_true ?_ fun c hc => absurd ⟨c, hc⟩ hcut
    have hwholeTrip : Matcher.cutBehind solved = solved := by
      unfold Matcher.cutBehind
      split
      · exact absurd ⟨_, ‹_›⟩ hcut
      · rfl
    have hfirstMem := (s.timestamp_mem h hfirst fresh hsecond hwhole).1
    rw [hwholeTrip, hwhole] at hsecond
    cases hsecond
    rw [hwholeTrip, VehicleTrace.insertAll_insertAll hfirstMem]

end Cut

end Matching

/-! ### Cuts along a road -/

/-- The road, served. -/
def roadService : Matching ℕ Milestone Unit Unit where
  network := straightRoad
  runtime := ()
  emission context := context.weight
  formula path _ _ _ _ _ _ _ := path.length
  nearestNodesProjected point _ := edgesNear point
  searchDistance := none
  heap := listHeap
  reachDistance := 200000

theorem Matcher.exists_snapshot [DecidableEq E] [Inhabited E] [Geometry P] [Inhabited P]
    {m : Matcher E P M R} {trip : Trip E P} (h : (m.snapshot trip).1.toOption.isSome) :
    ∃ collapsed, m.snapshot trip = (.ok collapsed, (m.snapshot trip).2) := by
  obtain ⟨collapsed, hcollapsed⟩ := Option.isSome_iff_exists.mp h
  refine ⟨collapsed, ?_⟩
  rcases hsnapshot : m.snapshot trip with ⟨r, after⟩
  rw [hsnapshot] at hcollapsed
  cases r with
  | error e => cases hcollapsed
  | ok c =>
    cases hcollapsed
    rfl

/-- What a trip is after its snapshot. -/
def afterSnapshot (trip : Trip ℕ Milestone) : Trip ℕ Milestone :=
  (roadService.matcher.snapshot trip).2

/-- The trip cut, with an observation further along the road. -/
def cutAlong (trip : Trip ℕ Milestone) : Trip ℕ Milestone :=
  roadService.matcher.pushAll (Matcher.cutBehind (afterSnapshot trip)) [⟨⟨270⟩, 3⟩]

/-- The trip uncut, with that observation. -/
def wholeAlong (trip : Trip ℕ Milestone) : Trip ℕ Milestone :=
  roadService.matcher.pushAll (afterSnapshot trip) [⟨⟨270⟩, 3⟩]

/-- Two observations on one edge. -/
def edgeTrip : Trip ℕ Milestone := (roadService.matcher.extend Trip.new [⟨⟨30⟩, 0⟩, ⟨⟨60⟩, 1⟩]).2

/-- No geometry is lost with a hop along an edge. -/
theorem Matching.rebuilds_iff_edgeTrip : ∃ first second whole,
    roadService.matcher.snapshot edgeTrip = (.ok first, afterSnapshot edgeTrip) ∧
      VehicleTrace.Rebuilt 3 (roadService.emit first edgeTrip)
        (roadService.emit second (cutAlong edgeTrip))
        (roadService.emit whole (wholeAlong edgeTrip)) := by
  have h : Trip.Reached (· = roadService.matcher) edgeTrip := .extend _ .new rfl
  obtain ⟨first, hfirst⟩ : ∃ first, roadService.matcher.snapshot edgeTrip
      = (.ok first, afterSnapshot edgeTrip) := Matcher.exists_snapshot (by decide +kernel)
  obtain ⟨second, hsecond⟩ : ∃ second, roadService.matcher.snapshot (cutAlong edgeTrip)
      = (.ok second, afterSnapshot (cutAlong edgeTrip)) := Matcher.exists_snapshot (by decide +kernel)
  obtain ⟨whole, hwhole⟩ : ∃ whole, roadService.matcher.snapshot (wholeAlong edgeTrip)
      = (.ok whole, afterSnapshot (wholeAlong edgeTrip)) := Matcher.exists_snapshot (by decide +kernel)
  have hconvergence : Matcher.convergence (afterSnapshot edgeTrip) = .ok (some 1) := by
    decide +kernel
  have hlayers : (Matcher.cutBehind (afterSnapshot edgeTrip)).layers = 1 ∧
      (afterSnapshot edgeTrip).layers = 2 := by
    decide +kernel
  have hplace : (roadService.matcher.snapshot (cutAlong edgeTrip)).1.toOption.map
        (fun solution => solution.place 0)
      = (roadService.matcher.snapshot (wholeAlong edgeTrip)).1.toOption.map
        fun solution => solution.place 1 := by
    decide +kernel
  have hgeometry : (roadService.matcher.snapshot edgeTrip).1.toOption.map
      (fun solution => solution.hopGeometry 0 roadService.network) = some [] := by
    decide +kernel
  rw [hsecond, hwhole] at hplace
  rw [hfirst] at hgeometry
  refine ⟨first, second, whole, hfirst, (roadService.rebuilds_iff h hfirst [⟨⟨270⟩, 3⟩] hsecond
    hwhole ?_ (by decide +kernel)).mpr ?_⟩
  · intro k hk
    rw [hlayers.1] at hk
    obtain rfl : k = 0 := by omega
    rw [hlayers.1, hlayers.2]
    exact Option.some_inj.mp hplace
  · intro c hc
    rw [hconvergence, Except.ok.injEq, Option.some_inj] at hc
    subst hc
    exact Or.inr (Or.inl (Option.some_inj.mp hgeometry))

/-- The hop into the convergence layer leads over two nodes, and they are missed. -/
theorem roadTrip_not_rebuilt : ¬ ∀ trip, Trip.Reached (· = roadService.matcher) trip →
    ∀ first solved, roadService.matcher.snapshot trip = (.ok first, solved) →
    ∀ fresh second after whole after',
      roadService.matcher.snapshot (roadService.matcher.pushAll (Matcher.cutBehind solved) fresh)
        = (.ok second, after) →
      roadService.matcher.snapshot (roadService.matcher.pushAll solved fresh)
        = (.ok whole, after') →
      (∀ k < (Matcher.cutBehind solved).layers,
        second.place k = whole.place (solved.layers - (Matcher.cutBehind solved).layers + k)) →
      ∀ capacity, ((roadService.matcher.pushAll solved fresh).origins.map
          Origin.timestamp).toFinset.card ≤ capacity →
        VehicleTrace.Rebuilt capacity (roadService.emit first trip)
          (roadService.emit second
            (roadService.matcher.pushAll (Matcher.cutBehind solved) fresh))
          (roadService.emit whole (roadService.matcher.pushAll solved fresh)) := by
  intro hall
  have h : Trip.Reached (· = roadService.matcher) roadTrip := .extend _ .new rfl
  obtain ⟨first, hfirst⟩ : ∃ first, roadService.matcher.snapshot roadTrip
      = (.ok first, afterSnapshot roadTrip) := Matcher.exists_snapshot (by decide +kernel)
  obtain ⟨second, hsecond⟩ : ∃ second, roadService.matcher.snapshot (cutAlong roadTrip)
      = (.ok second, afterSnapshot (cutAlong roadTrip)) := Matcher.exists_snapshot (by decide +kernel)
  obtain ⟨whole, hwhole⟩ : ∃ whole, roadService.matcher.snapshot (wholeAlong roadTrip)
      = (.ok whole, afterSnapshot (wholeAlong roadTrip)) := Matcher.exists_snapshot (by decide +kernel)
  have hlayers : (Matcher.cutBehind (afterSnapshot roadTrip)).layers = 1 ∧
      (afterSnapshot roadTrip).layers = 3 := by
    decide +kernel
  have hplace : (roadService.matcher.snapshot (cutAlong roadTrip)).1.toOption.map
        (fun solution => solution.place 0)
      = (roadService.matcher.snapshot (wholeAlong roadTrip)).1.toOption.map
        fun solution => solution.place 2 := by
    decide +kernel
  have hpoints : ((roadService.matcher.snapshot roadTrip).1.toOption.bind fun first =>
      (roadService.matcher.snapshot (cutAlong roadTrip)).1.toOption.map fun second =>
        VehicleTrace.points (VehicleTrace.insertAll
          (VehicleTrace.insertAll ∅ (roadService.emit first roadTrip).layers)
            (roadService.emit second (cutAlong roadTrip)).layers))
      = some [⟨30⟩, ⟨60⟩, ⟨250⟩, ⟨270⟩] := by
    decide +kernel
  have hpoints' : ((roadService.matcher.snapshot (wholeAlong roadTrip)).1.toOption.map fun whole =>
      VehicleTrace.points
        (VehicleTrace.insertAll ∅ (roadService.emit whole (wholeAlong roadTrip)).layers))
      = some [⟨30⟩, ⟨60⟩, ⟨100⟩, ⟨200⟩, ⟨250⟩, ⟨270⟩] := by
    decide +kernel
  rw [hsecond, hwhole] at hplace
  rw [hfirst, hsecond] at hpoints
  rw [hwhole] at hpoints'
  have hrebuilt := hall roadTrip h first _ hfirst [⟨⟨270⟩, 3⟩] second _ whole _ hsecond hwhole
    (fun k hk => ?_) 4 (by decide +kernel)
  · rw [roadService.rebuilt_iff_points h hfirst [⟨⟨270⟩, 3⟩] hsecond hwhole (by decide +kernel)]
      at hrebuilt
    have heq := (Option.some_inj.mp hpoints).symm.trans (hrebuilt.trans (Option.some_inj.mp hpoints'))
    exact absurd heq (by decide)
  · rw [hlayers.1] at hk
    obtain rfl : k = 0 := by omega
    rw [hlayers.1, hlayers.2]
    exact Option.some_inj.mp hplace

end Routers
