import Routers.Shard.Neighbours
import Routers.Library.IndexMap

/-!
# The window of loaded shards

A window keeps the shards that were fetched, and tells on each move which cells came into its
scope, the cell of a point and those around it, and which cached ones went out of it.  The cells
of the scope are listed whether they are cached or not.

## Main definitions

* `ShardWindow` — the centre, if there is one, and the cache.
* `ShardWindow.recenter`, `ShardWindow.fetch`, `ShardWindow.evict` — the operations.
* `ShardWindow.InScope` — the cell of a point and the cells around it.
* `ShardWindow.Exact` — a delta lists what is in scope and missing, and what is cached and out of it.

## Main results

* `ShardWindow.recenter_cases` — **a move within a cell changes nothing; any other lists the whole
  scope, and the cache's part outside it.**
* `ShardWindow.recentered_exact_iff` — **a delta is exact iff nothing in scope is cached.**

## References

`src/libs/routers_shard/src/loader/window.rs` and `src/libs/routers_shard/src/loader/mod.rs`.
-/

namespace Routers

/-- What comes of a move: the cells to fetch and those out of scope, or nothing. -/
inductive ShardMoveDelta (S : Type) where
  | recentered (scopedIds unscopedIds : List S)
  | unchanged
  deriving DecidableEq, Repr

/-- Why a shard could not be loaded. -/
inductive LoadError (F : Type) where
  | fetch (error : F)
  | decode (error : String)
  deriving DecidableEq, Repr

/-- The window's state, over shards that are read as `N`. -/
structure ShardWindow (S N : Type) where
  /-- The shard centre, if allocated. -/
  center : Option S
  /-- The cache of loaded shards. -/
  cache : IndexMap S N

namespace ShardWindow

variable {S N Bytes F : Type} [DecidableEq S]

omit [DecidableEq S] in
/-- An empty window. -/
def new : ShardWindow S N := ⟨none, IndexMap.empty⟩

omit [DecidableEq S] in
/-- The cells in the cache. -/
def loadedIds (window : ShardWindow S N) : List S := window.cache.keys

/-- Reframe the window around a point. -/
def recenter (strategy : ShardingStrategy S) (window : ShardWindow S N) (point : Point) :
    ShardMoveDelta S × ShardWindow S N :=
  let candidateCenter := strategy.locate point
  if window.center = some candidateCenter then (.unchanged, window)
  else
    let neighbours := strategy.neighbours candidateCenter
    let existing := window.loadedIds
    let allIds := neighbours ++ existing ++ [candidateCenter]
    let (unscopedIds, scopedIds) :=
      allIds.partition fun k => decide (k ∉ neighbours) && decide (k ≠ candidateCenter)
    (.recentered scopedIds unscopedIds, { window with center := some candidateCenter })

/-- Take a cell out of the cache. -/
def evict (window : ShardWindow S N) (key : S) : ShardWindow S N :=
  { window with cache := window.cache.erase key }

/-- Fetch and decode a single shard, given what the fetcher answered for its name. -/
def fetch (decode : Bytes → Except String N) (window : ShardWindow S N) (key : S)
    (response : Except F Bytes) : Except (LoadError F) N × ShardWindow S N :=
  match response with
  | .error e => (.error (.fetch e), window)
  | .ok bytes =>
    match decode bytes with
    | .error e => (.error (.decode e), window)
    | .ok net => (.ok net, { window with cache := window.cache.insert key net })

/-- A call of the window, a fetch with the fetcher's answer. -/
inductive Call (S Bytes F : Type) where
  | recenter (point : Point)
  | fetch (key : S) (response : Except F Bytes)
  | evict (key : S)

/-- What a call leaves of the window. -/
def call (strategy : ShardingStrategy S) (decode : Bytes → Except String N)
    (window : ShardWindow S N) : Call S Bytes F → ShardWindow S N
  | .recenter point => (window.recenter strategy point).2
  | .fetch key response => (window.fetch decode key response).2
  | .evict key => window.evict key

/-- The window after some calls. -/
def run (strategy : ShardingStrategy S) (decode : Bytes → Except String N)
    (calls : List (Call S Bytes F)) : ShardWindow S N :=
  calls.foldl (call strategy decode) new

/-! ### What a move lists -/

/-- The cells in scope at a point: its own and those around it. -/
def InScope (strategy : ShardingStrategy S) (point : Point) (id : S) : Prop :=
  id = strategy.locate point ∨ id ∈ strategy.neighbours (strategy.locate point)

instance (strategy : ShardingStrategy S) (point : Point) (id : S) :
    Decidable (InScope strategy point id) := inferInstanceAs (Decidable (_ ∨ _))

/-- The move's predicate tells the cells out of scope. -/
theorem outside_eq (strategy : ShardingStrategy S) (point : Point) (id : S) :
    (decide (id ∉ strategy.neighbours (strategy.locate point)) && decide (id ≠ strategy.locate point))
      = !decide (InScope strategy point id) := by
  rw [← Bool.decide_and, ← decide_not]
  apply decide_eq_decide.mpr
  rw [InScope, not_or, and_comm]

/-- **What a move does**: within a cell nothing; otherwise it lists the whole scope around the part
of it that is cached, and the cached cells out of scope, and leaves the cache as it is. -/
theorem recenter_cases (strategy : ShardingStrategy S) (window : ShardWindow S N) (point : Point) :
    (window.center = some (strategy.locate point) ∧
      window.recenter strategy point = (.unchanged, window)) ∨
    (window.center ≠ some (strategy.locate point) ∧
      window.recenter strategy point = (.recentered
        (strategy.neighbours (strategy.locate point)
          ++ window.loadedIds.filter (fun id => decide (InScope strategy point id))
          ++ [strategy.locate point])
        (window.loadedIds.filter fun id => !decide (InScope strategy point id)),
        { window with center := some (strategy.locate point) })) := by
  by_cases hcenter : window.center = some (strategy.locate point)
  · exact Or.inl ⟨hcenter, if_pos hcenter⟩
  · refine Or.inr ⟨hcenter, ?_⟩
    have hcell : decide (InScope strategy point (strategy.locate point)) = true :=
      decide_eq_true (Or.inl rfl)
    have hneighbours : ∀ id ∈ strategy.neighbours (strategy.locate point),
        decide (InScope strategy point id) = true := fun id h => decide_eq_true (Or.inr h)
    -- Of the three lists only the cached one has cells out of scope.
    simp only [recenter, if_neg hcenter, outside_eq, List.partition_eq_filter_filter,
      Function.comp_def, Bool.not_not, List.filter_append, List.filter_cons, List.filter_nil, hcell,
      if_true, Bool.not_true, Bool.false_eq_true, if_false, List.append_nil,
      List.filter_eq_self.mpr hneighbours]
    have hnone : (strategy.neighbours (strategy.locate point)).filter
        (fun id => !decide (InScope strategy point id)) = [] := by
      apply List.filter_eq_nil_iff.mpr
      intro id hid
      rw [hneighbours id hid]
      decide
    rw [hnone, List.nil_append]

/-- A failed fetch changes nothing. -/
theorem fetch_error {decode : Bytes → Except String N} {window : ShardWindow S N} {key : S}
    {response : Except F Bytes} {e : LoadError F}
    (h : (window.fetch decode key response).1 = .error e) :
    (window.fetch decode key response).2 = window := by
  unfold fetch at h ⊢
  cases response with
  | error e => rfl
  | ok bytes =>
    dsimp only at h ⊢
    cases hdecode : decode bytes with
    | error e => rfl
    | ok net => rw [hdecode] at h; cases h

/-! ### Exact deltas -/

/-- A delta lists, each once, the cells that are in scope and missing from the cache, and the cached
ones that are out of scope. -/
structure Exact (strategy : ShardingStrategy S) (window : ShardWindow S N) (point : Point)
    (scopedIds unscopedIds : List S) : Prop where
  scoped_nodup : scopedIds.Nodup
  mem_scoped : ∀ id, id ∈ scopedIds ↔ InScope strategy point id ∧ window.cache.get? id = none
  unscoped_nodup : unscopedIds.Nodup
  mem_unscoped : ∀ id, id ∈ unscopedIds ↔
    window.cache.get? id ≠ none ∧ ¬ InScope strategy point id

theorem mem_loadedIds_iff {window : ShardWindow S N} {id : S} :
    id ∈ window.loadedIds ↔ window.cache.get? id ≠ none := by
  rw [loadedIds, IndexMap.mem_keys_iff, IndexMap.contains, Option.isSome_iff_ne_none]

/-- A centre among its own neighbours, or a neighbour listed twice. -/
def Repeats (strategy : ShardingStrategy S) (id : S) : Prop :=
  ¬ (strategy.neighbours id ++ [id]).Nodup

/-- What is listed as in scope, the centre and its neighbours around the cached ones among them. -/
theorem mem_scoped_iff {strategy : ShardingStrategy S} {point : Point} {existing : List S} {id : S} :
    id ∈ strategy.neighbours (strategy.locate point)
        ++ existing.filter (fun id => decide (InScope strategy point id))
        ++ [strategy.locate point]
      ↔ InScope strategy point id := by
  rw [List.mem_append, List.mem_append, List.mem_singleton, List.mem_filter, decide_eq_true_iff]
  constructor
  · rintro ((h | h) | h)
    · exact Or.inr h
    · exact h.2
    · exact Or.inl h
  · rintro (h | h)
    · exact Or.inr h
    · exact Or.inl (Or.inl h)

/-- What is listed as out of scope is always exact. -/
theorem unscoped_exact (strategy : ShardingStrategy S) (window : ShardWindow S N) (point : Point) :
    (window.loadedIds.filter fun id => !decide (InScope strategy point id)).Nodup ∧
      ∀ id, id ∈ window.loadedIds.filter (fun id => !decide (InScope strategy point id)) ↔
        window.cache.get? id ≠ none ∧ ¬ InScope strategy point id := by
  refine ⟨window.cache.keys_nodup.filter _, fun id => ?_⟩
  rw [List.mem_filter, mem_loadedIds_iff, Bool.not_eq_true', decide_eq_false_iff_not]

/-- With nothing of the scope cached, no shard that is loaded stays. -/
theorem filter_inScope_eq_nil {strategy : ShardingStrategy S} {window : ShardWindow S N}
    {point : Point} (h : ∀ id, InScope strategy point id → window.cache.get? id = none) :
    window.loadedIds.filter (fun id => decide (InScope strategy point id)) = [] := by
  apply List.filter_eq_nil_iff.mpr
  intro id hid
  rw [decide_eq_true_iff]
  exact fun hscope => mem_loadedIds_iff.mp hid (h id hscope)

/-- **A delta is exact iff nothing in scope is cached**, in any window that some calls lead to; a
strategy that repeats a cell around the new centre apart. -/
theorem recentered_exact_iff (strategy : ShardingStrategy S) (decode : Bytes → Except String N)
    (calls : List (Call S Bytes F)) (point : Point) {scopedIds unscopedIds : List S}
    {window : ShardWindow S N}
    (h : (run strategy decode calls).recenter strategy point
      = (.recentered scopedIds unscopedIds, window)) :
    (Exact strategy (run strategy decode calls) point scopedIds unscopedIds
        ∧ window.cache = (run strategy decode calls).cache) ↔
      (∀ id, InScope strategy point id → (run strategy decode calls).cache.get? id = none)
        ∧ ¬ Repeats strategy (strategy.locate point) := by
  generalize run strategy decode calls = w at h ⊢
  obtain ⟨-, heq⟩ | ⟨-, heq⟩ := w.recenter_cases strategy point
  · rw [heq] at h
    cases h
  rw [heq] at h
  cases h
  obtain ⟨hunscoped, hmem⟩ := w.unscoped_exact strategy point
  constructor
  · rintro ⟨hexact, -⟩
    have hnone : ∀ id, InScope strategy point id → w.cache.get? id = none := fun id hid =>
      ((hexact.mem_scoped id).mp (mem_scoped_iff.mpr hid)).2
    have hnodup := hexact.scoped_nodup
    rw [filter_inScope_eq_nil hnone, List.append_nil] at hnodup
    exact ⟨hnone, not_not_intro hnodup⟩
  · rintro ⟨hnone, hrepeats⟩
    have hnodup := not_not.mp hrepeats
    refine ⟨⟨?_, fun id => ?_, hunscoped, hmem⟩, rfl⟩
    · rwa [filter_inScope_eq_nil hnone, List.append_nil]
    · rw [mem_scoped_iff]
      exact ⟨fun hid => ⟨hid, hnone id hid⟩, And.left⟩

omit [DecidableEq S] in
/-- A strategy with exact neighbours repeats no cell around a centre. -/
theorem not_repeats_locate {strategy : ShardingStrategy S} (h : strategy.ExactNeighbours)
    (point : Point) : ¬ Repeats strategy (strategy.locate point) := by
  rw [Repeats, not_not]
  refine List.nodup_append.mpr ⟨h.nodup _ ⟨point, rfl⟩, List.nodup_singleton _, ?_⟩
  rintro a ha b hb rfl
  exact h.not_mem _ ⟨point, rfl⟩ (List.mem_singleton.mp hb ▸ ha)

/-- The quarters of the world. -/
def quarters : QuadTreeStrategy := ⟨1, by decide⟩

/-- The window after some calls, its shards left empty. -/
def runQuarters (calls : List (Call QuadKey Unit Unit)) : ShardWindow QuadKey Unit :=
  run quarters.toStrategy (fun _ => .ok ()) calls

/-- The sixteenths of the world. -/
def sixteenths : QuadTreeStrategy := ⟨2, by decide⟩

/-- The south-western sixteenth is moved to and fetched. -/
def southWestern : List (Call QuadKey Unit Unit) :=
  [.recenter ⟨-170, -80⟩, .fetch ⟨2, 0⟩ (.ok ())]

/-- A move to the north-eastern one: its cell and those around it are listed, each once, and the
cached one as out of scope. -/
theorem recentered_exact_across :
    Exact sixteenths.toStrategy (run sixteenths.toStrategy (fun _ => .ok ()) southWestern) ⟨100, 60⟩
      [⟨2, 7⟩, ⟨2, 3⟩, ⟨2, 11⟩, ⟨2, 15⟩] [⟨2, 0⟩] := by
  let window : ShardWindow QuadKey Unit :=
    run sixteenths.toStrategy (fun _ => .ok ()) southWestern
  have hmove : window.recenter sixteenths.toStrategy ⟨100, 60⟩
      = (.recentered [⟨2, 7⟩, ⟨2, 3⟩, ⟨2, 11⟩, ⟨2, 15⟩] [⟨2, 0⟩],
        (window.recenter sixteenths.toStrategy ⟨100, 60⟩).2) :=
    Prod.ext (by decide +kernel) rfl
  have hscope : ∀ id, InScope sixteenths.toStrategy ⟨100, 60⟩ id →
      window.cache.get? id = none := by
    have hcentre : sixteenths.toStrategy.locate ⟨100, 60⟩ = ⟨2, 15⟩ := by decide +kernel
    have hneighbours : sixteenths.toStrategy.neighbours ⟨2, 15⟩ = [⟨2, 7⟩, ⟨2, 3⟩, ⟨2, 11⟩] := by
      decide +kernel
    have hcached : ∀ id ∈ [(⟨2, 15⟩ : QuadKey), ⟨2, 7⟩, ⟨2, 3⟩, ⟨2, 11⟩],
        window.cache.get? id = none := by decide +kernel
    intro id hid
    rw [InScope, hcentre, hneighbours] at hid
    exact hcached id (List.mem_cons.mpr hid)
  exact ((recentered_exact_iff sixteenths.toStrategy (fun _ => .ok ()) southWestern ⟨100, 60⟩
    hmove).mpr ⟨hscope, not_repeats_locate sixteenths.exactNeighbours _⟩).1

/-- After the south-western quarter was fetched, a move to the one across lists it as in scope, and
twice. -/
theorem recentered_lists_cached : ¬ ∀ (calls : List (Call QuadKey Unit Unit)) (point : Point)
    (scopedIds unscopedIds : List QuadKey) (window : ShardWindow QuadKey Unit),
    (runQuarters calls).recenter quarters.toStrategy point
        = (.recentered scopedIds unscopedIds, window) →
      Exact quarters.toStrategy (runQuarters calls) point scopedIds unscopedIds
        ∧ window.cache = (runQuarters calls).cache := by
  intro h
  obtain ⟨hexact, -⟩ := h [.recenter ⟨-90, -45⟩, .fetch ⟨1, 0⟩ (.ok ())] ⟨90, 45⟩
    [⟨1, 1⟩, ⟨1, 0⟩, ⟨1, 2⟩, ⟨1, 0⟩, ⟨1, 3⟩] [] _ (Prod.ext (by decide +kernel) rfl)
  have hnodup := hexact.scoped_nodup
  revert hnodup
  decide

end ShardWindow

end Routers
