import Routers.Realtime.Worker
import Mathlib.Data.List.Destutter

/-!
# The context of a live event

What a matcher is asked to solve reaches back from the live event through the newest entries of the
lane, as far as one follows the other closely.  The window is filled before repeated entries are
taken out, so that a copy takes up a place in it.

## Main definitions

* `Settings.Near` — an event follows another closely, in time and in space.
* `Settings.Recent` — the newest entries of a lane, as many as the window holds.
* `Settings.LongestRun` — the longest run of entries back from a live event.

## Main results

* `pairwise_lt_destutter`, `exists_mem_destutter` — what is left of a sorted list.
* `Settings.longestRun_unbroken` — **the scan stops at the end of the longest run.**
* `Settings.Recent.unique` — the newest entries are determined, if those of one time are copies.
* `Settings.createContext_spec` — **the context is the longest unbroken run of recent events.**

## References

`src/libs/routers_realtime/bin/orchestrator.rs`.
-/

namespace Routers

variable {E P : Type}

/-! ### Sorted lists without repeated keys -/

section Destutter

variable {α β : Type} [LinearOrder β] (f : α → β) [DecidableRel fun x y : α => f x ≠ f y]

/-- Of a sorted list, one element of each key is left, in strict order. -/
theorem pairwise_lt_destutter' (l : List α) (a : α)
    (h : (a :: l).Pairwise fun x y => f x ≤ f y) :
    (l.destutter' (fun x y => f x ≠ f y) a).Pairwise fun x y => f x < f y := by
  induction l generalizing a with
  | nil => exact List.pairwise_singleton _ a
  | cons b l ih =>
    obtain ⟨ha, hb⟩ := List.pairwise_cons.mp h
    by_cases hne : f a ≠ f b
    · rw [List.destutter'_cons, if_pos hne, List.pairwise_cons]
      have hlt : f a < f b := lt_of_le_of_ne (ha b List.mem_cons_self) hne
      refine ⟨fun x hx => ?_, ih b hb⟩
      -- Whatever is left behind is no earlier than its head.
      have hsublist := List.destutter'_sublist l (fun x y => f x ≠ f y) b
      obtain rfl | hmem := List.mem_cons.mp (hsublist.subset hx)
      · exact hlt
      · exact hlt.trans_le ((List.pairwise_cons.mp hb).1 x hmem)
    · rw [List.destutter'_cons, if_neg hne]
      apply ih a
      exact List.pairwise_cons.mpr
        ⟨fun x hx => ha x (List.mem_cons_of_mem b hx), (List.pairwise_cons.mp hb).2⟩

theorem pairwise_lt_destutter {l : List α} (h : l.Pairwise fun x y => f x ≤ f y) :
    (l.destutter fun x y => f x ≠ f y).Pairwise fun x y => f x < f y := by
  cases l with
  | nil => exact List.Pairwise.nil
  | cons a l => exact pairwise_lt_destutter' f l a h

omit [LinearOrder β] in
/-- No key is lost. -/
theorem exists_mem_destutter' (l : List α) (a : α) :
    ∀ x ∈ a :: l, ∃ y ∈ l.destutter' (fun x y => f x ≠ f y) a, f y = f x := by
  induction l generalizing a with
  | nil => exact fun x hx => ⟨x, hx, rfl⟩
  | cons b l ih =>
    intro x hx
    by_cases hne : f a ≠ f b
    · rw [List.destutter'_cons, if_pos hne]
      obtain rfl | hx := List.mem_cons.mp hx
      · exact ⟨x, List.mem_cons_self, rfl⟩
      · obtain ⟨y, hy, hkey⟩ := ih b x hx
        exact ⟨y, List.mem_cons_of_mem a hy, hkey⟩
    · rw [List.destutter'_cons, if_neg hne]
      obtain rfl | hx := List.mem_cons.mp hx
      · exact ih x x List.mem_cons_self
      obtain rfl | hx := List.mem_cons.mp hx
      · -- The element that is dropped has the key of the one kept.
        obtain ⟨y, hy, hkey⟩ := ih a a List.mem_cons_self
        exact ⟨y, hy, hkey.trans (not_not.mp hne)⟩
      · exact ih a x (List.mem_cons_of_mem a hx)

omit [LinearOrder β] in
theorem exists_mem_destutter {l : List α} {x : α} (hx : x ∈ l) :
    ∃ y ∈ l.destutter (fun x y => f x ≠ f y), f y = f x := by
  cases l with
  | nil => exact absurd hx List.not_mem_nil
  | cons a l => exact exists_mem_destutter' f l a x hx

end Destutter

/-- Later whole microseconds are more microseconds. -/
theorem DateTime.WholeMicros.timestampMicros_lt {t u : DateTime} (ht : t.WholeMicros)
    (hu : u.WholeMicros) (h : t < u) : t.timestampMicros < u.timestampMicros := by
  rw [DateTime.wholeMicros_iff] at ht hu
  rw [DateTime.lt_iff] at h
  rw [timestampMicros, timestampMicros]
  omega

/-! ### The longest run -/

/-- An event as an observation. -/
def RawEvent.origin (event : RawEvent P) : Origin P :=
  ⟨event.point, event.timestamp.timestampMicros⟩

namespace Settings

variable [Geometry P] (c : Settings)

/-- An event is within the gap and the jump distance of a later one. -/
def Near (later earlier : RawEvent P) : Prop :=
  |later.timestamp.durationSince earlier.timestamp| ≤ c.gap ∧
    Geometry.distance later.point earlier.point ≤ c.jumpDistance

omit [Geometry P] in
/-- The newest entries of a lane, newest first, as many as the window holds. -/
structure Recent (lane recent : List (RawEvent P)) : Prop where
  newestFirst : recent.Pairwise fun a b => b.timestamp ≤ a.timestamp
  length_eq : recent.length = min c.contextWindow lane.length
  rest : ∃ older, (recent ++ older).Perm lane ∧
    ∀ a ∈ recent, ∀ b ∈ older, b.timestamp ≤ a.timestamp

/-- The longest run of entries, from the first on, in which each is near the one before, the first
near the live event. -/
structure LongestRun (live : RawEvent P) (recent run : List (RawEvent P)) : Prop where
  isPrefix : run <+: recent
  isChain : (live :: run).IsChain c.Near
  longest : ∀ l, l <+: recent → (live :: l).IsChain c.Near → l <+: run

/-- **The scan stops at the end of the longest run.** -/
theorem longestRun_unbroken (live : RawEvent P) (recent : List (RawEvent P)) :
    c.LongestRun live recent (c.unbroken live.point live.timestamp recent) := by
  induction recent generalizing live with
  | nil => exact ⟨List.prefix_rfl, List.isChain_singleton live, fun l hl _ => hl⟩
  | cons event recent ih =>
    by_cases hnear : c.Near live event
    · obtain ⟨hinner, hchain, hlongest⟩ := ih event
      have hrun : c.unbroken live.point live.timestamp (event :: recent)
          = event :: c.unbroken event.point event.timestamp recent := if_pos hnear
      rw [hrun]
      refine ⟨(List.prefix_cons_inj event).mpr hinner,
        List.isChain_cons_cons.mpr ⟨hnear, hchain⟩, fun l hl hl' => ?_⟩
      obtain _ | ⟨head, l⟩ := l
      · exact List.nil_prefix
      obtain ⟨rfl, hrest⟩ := List.cons_prefix_cons.mp hl
      exact (List.prefix_cons_inj head).mpr (hlongest l hrest (List.isChain_cons_cons.mp hl').2)
    · have hrun : c.unbroken live.point live.timestamp (event :: recent) = [] := if_neg hnear
      rw [hrun]
      refine ⟨List.nil_prefix, List.isChain_singleton live, fun l hl hl' => ?_⟩
      -- A longer run would begin with an entry that is not near.
      obtain _ | ⟨head, l⟩ := l
      · exact List.nil_prefix
      obtain ⟨rfl, -⟩ := List.cons_prefix_cons.mp hl
      exact absurd (List.isChain_cons_cons.mp hl').1 hnear

local instance : Std.Total fun a b : RawEvent P => b.timestamp ≤ a.timestamp :=
  ⟨fun a b => le_total b.timestamp a.timestamp⟩

local instance : IsTrans (RawEvent P) fun a b => b.timestamp ≤ a.timestamp :=
  ⟨fun _ _ _ hab hbc => hbc.trans hab⟩

omit [Geometry P] in
/-- The newest entries are a lane's first ones when it is sorted, the newest to the front. -/
theorem recent_take (lane : List (RawEvent P)) :
    c.Recent lane ((lane.insertionSort fun a b => b.timestamp ≤ a.timestamp).take
      c.contextWindow) := by
  have hsorted := List.pairwise_insertionSort (fun a b => b.timestamp ≤ a.timestamp) lane
  have hperm := List.perm_insertionSort (fun a b => b.timestamp ≤ a.timestamp) lane
  generalize lane.insertionSort (fun a b => b.timestamp ≤ a.timestamp) = sorted at hsorted hperm ⊢
  refine ⟨hsorted.sublist (List.take_sublist _ _), ?_, sorted.drop c.contextWindow, ?_, ?_⟩
  · rw [List.length_take, hperm.length_eq]
  · rwa [List.take_append_drop]
  · rw [← List.take_append_drop c.contextWindow sorted] at hsorted
    exact (List.pairwise_append.mp hsorted).2.2

omit [Geometry P] in
/-- The newest entries of a lane are determined, if entries of one time are copies. -/
theorem Recent.unique {lane recent recent' : List (RawEvent P)} (h : c.Recent lane recent)
    (h' : c.Recent lane recent')
    (hcopies : ∀ a ∈ lane, ∀ b ∈ lane, a.timestamp = b.timestamp → a = b) : recent = recent' := by
  -- With the others sorted behind them, the newest entries begin a sorted lane, which is one only.
  have hbegins : ∀ r, c.Recent lane r → ∃ tail, (r ++ tail).Perm lane ∧
      (r ++ tail).Pairwise fun a b => b.timestamp ≤ a.timestamp := by
    intro r hr
    obtain ⟨older, hperm, hle⟩ := hr.rest
    refine ⟨older.insertionSort fun a b => b.timestamp ≤ a.timestamp,
      ((List.perm_insertionSort _ older).append_left r).trans hperm,
      List.pairwise_append.mpr ⟨hr.newestFirst, List.pairwise_insertionSort _ older, ?_⟩⟩
    exact fun a ha b hb => hle a ha b ((List.mem_insertionSort _).mp hb)
  obtain ⟨tail, hperm, hsorted⟩ := hbegins recent h
  obtain ⟨tail', hperm', hsorted'⟩ := hbegins recent' h'
  have heq : recent ++ tail = recent' ++ tail' := by
    refine List.Perm.eq_of_pairwise (fun a b ha hb hba hab => ?_) hsorted hsorted'
      (hperm.trans hperm'.symm)
    exact hcopies a (hperm.subset ha) b (hperm'.subset hb) (le_antisymm hab hba)
  exact (List.append_inj heq (h.length_eq.trans h'.length_eq.symm)).1

/-! ### The history up to a live event -/

section History

variable {c : Settings} {lane : List (RawEvent P)} {payload : Payload P}

/-- The entries that a context draws on. -/
def run (c : Settings) (lane : List (RawEvent P)) (payload : Payload P) : List (RawEvent P) :=
  c.unbroken payload.point payload.timestamp
    ((lane.insertionSort fun a b => b.timestamp ≤ a.timestamp).take c.contextWindow)

theorem run_subset {event : RawEvent P} (h : event ∈ c.run lane payload) : event ∈ lane := by
  have hrun := (c.longestRun_unbroken payload.asEvent _).isPrefix.subset h
  exact (List.mem_insertionSort _).mp (List.mem_of_mem_take hrun)

/-- Behind a lane that is older throughout, the history is the run and the live event, sorted, with
repeated times left out. -/
theorem contextHistory_eq (hnewer : ∀ event ∈ lane, event.timestamp < payload.timestamp) :
    c.contextHistory lane payload
      = (sortByTimestamp (payload.asEvent :: c.run lane payload)).destutter
          fun a b => a.timestamp ≠ b.timestamp := by
  have hall : lane.filter (fun event => decide (event.timestamp ≤ payload.timestamp)) = lane :=
    List.filter_eq_self.mpr fun event hevent => decide_eq_true (hnewer event hevent).le
  rw [contextHistory, hall]
  rfl

theorem pairwise_contextHistory (c : Settings) (entries : List (RawEvent P))
    (payload : Payload P) :
    (c.contextHistory entries payload).Pairwise fun a b => a.timestamp < b.timestamp := by
  have : Std.Total fun a b : RawEvent P => a.timestamp ≤ b.timestamp :=
    ⟨fun a b => le_total a.timestamp b.timestamp⟩
  have : IsTrans (RawEvent P) fun a b => a.timestamp ≤ b.timestamp :=
    ⟨fun _ _ _ hab hbc => hab.trans hbc⟩
  exact pairwise_lt_destutter RawEvent.timestamp
    (List.pairwise_insertionSort (fun a b : RawEvent P => a.timestamp ≤ b.timestamp) _)

/-- The history holds the live event and the run, and nothing else. -/
theorem mem_contextHistory_iff
    (hcopies : ∀ a ∈ lane, ∀ b ∈ lane, a.timestamp = b.timestamp → a = b)
    (hnewer : ∀ event ∈ lane, event.timestamp < payload.timestamp) {event : RawEvent P} :
    event ∈ c.contextHistory lane payload ↔
      event = payload.asEvent ∨ event ∈ c.run lane payload := by
  rw [contextHistory_eq hnewer, ← List.mem_cons]
  constructor
  · intro h
    exact (List.mem_insertionSort _).mp ((List.destutter_sublist _ _).subset h)
  · intro h
    obtain ⟨kept, hkept, htime⟩ := exists_mem_destutter RawEvent.timestamp
      (l := sortByTimestamp (payload.asEvent :: c.run lane payload))
      ((List.mem_insertionSort _).mpr h)
    have hmem := (List.mem_insertionSort _).mp ((List.destutter_sublist _ _).subset hkept)
    -- What was kept in its place is a copy: the live event shares its time with no entry.
    have heq : kept = event := by
      obtain rfl | hrun := List.mem_cons.mp hmem
      · obtain rfl | hrun' := List.mem_cons.mp h
        · rfl
        · exact absurd htime.symm (hnewer event (run_subset hrun')).ne
      · obtain rfl | hrun' := List.mem_cons.mp h
        · exact absurd htime (hnewer kept (run_subset hrun)).ne
        · exact hcopies kept (run_subset hrun) event (run_subset hrun') htime
    exact heq ▸ hkept

/-- The live event is the last of the history. -/
theorem exists_contextHistory
    (hcopies : ∀ a ∈ lane, ∀ b ∈ lane, a.timestamp = b.timestamp → a = b)
    (hnewer : ∀ event ∈ lane, event.timestamp < payload.timestamp) :
    ∃ before, c.contextHistory lane payload = before ++ [payload.asEvent] ∧
      ∀ event, event ∈ before ↔ event ∈ c.run lane payload := by
  have hsorted := c.pairwise_contextHistory lane payload
  obtain ⟨before, after, hsplit⟩ :=
    List.append_of_mem ((mem_contextHistory_iff hcopies hnewer).mpr (Or.inl rfl))
  rw [hsplit] at hsorted
  obtain ⟨-, hafter, hbefore⟩ := List.pairwise_append.mp hsorted
  have hnil : after = [] := by
    apply List.eq_nil_iff_forall_not_mem.mpr
    intro event hevent
    have hlt := (List.pairwise_cons.mp hafter).1 event hevent
    have hmem : event ∈ c.contextHistory lane payload := by
      rw [hsplit]
      exact List.mem_append_right _ (List.mem_cons_of_mem _ hevent)
    obtain rfl | hrun := (mem_contextHistory_iff hcopies hnewer).mp hmem
    · exact lt_irrefl _ hlt
    · exact lt_asymm hlt (hnewer event (run_subset hrun))
  subst hnil
  refine ⟨before, hsplit, fun event => ?_⟩
  have hmem : event ∈ c.contextHistory lane payload ↔ _ := mem_contextHistory_iff hcopies hnewer
  rw [hsplit, List.mem_append, List.mem_singleton] at hmem
  constructor
  · intro h
    have hlt := hbefore event h _ List.mem_cons_self
    exact (hmem.mp (Or.inl h)).resolve_left fun heq => hlt.ne (congrArg RawEvent.timestamp heq)
  · intro h
    have hlt := hnewer event (run_subset h)
    exact (hmem.mpr (Or.inr h)).resolve_right fun heq => hlt.ne (congrArg RawEvent.timestamp heq)

/-- A context draws on the longest run of the newest entries back from a live event: its origins
rise strictly in time, the live event is the last, and before it stand, once each, the events of
the run. -/
def LongestRunContext [DecidableEq P] (c : Settings) (previous : Option (Trip E P))
    (lane : List (RawEvent P))
    (payload : Payload P) (context : MatchContext E P) : Prop :=
  ∃ recent run before : List (RawEvent P),
    c.Recent lane recent ∧ c.LongestRun payload.asEvent recent run ∧
      (∀ event, event ∈ before ↔ event ∈ run) ∧
      ((before ++ [payload.asEvent]).map RawEvent.origin).Pairwise
        (fun a b => a.timestamp < b.timestamp) ∧
      context = ⟨Continuation.reconcile previous ((before ++ [payload.asEvent]).map RawEvent.origin),
        payload.vehicleId⟩

/-- **The context of a live event is the longest unbroken run of recent entries**, behind a lane
that is older throughout and whose entries of one time are copies. -/
theorem createContext_spec [DecidableEq P] (c : Settings) (previous : Option (Trip E P))
    (hmicros : payload.timestamp.WholeMicros ∧ ∀ event ∈ lane, event.timestamp.WholeMicros)
    (hcopies : ∀ a ∈ lane, ∀ b ∈ lane, a.timestamp = b.timestamp → a = b)
    (hnewer : ∀ event ∈ lane, event.timestamp < payload.timestamp) :
    c.LongestRunContext previous lane payload (c.createContext previous lane payload) := by
  obtain ⟨before, hhistory, hbefore⟩ := exists_contextHistory (c := c) hcopies hnewer
  refine ⟨_, c.run lane payload, before, c.recent_take lane, c.longestRun_unbroken _ _, hbefore,
    ?_, ?_⟩
  · have hwhole : ∀ event ∈ before ++ [payload.asEvent], event.timestamp.WholeMicros := by
      intro event hevent
      obtain h | h := List.mem_append.mp hevent
      · exact hmicros.2 event (run_subset ((hbefore event).mp h))
      · exact List.mem_singleton.mp h ▸ hmicros.1
    have hsorted := c.pairwise_contextHistory lane payload
    rw [hhistory] at hsorted
    rw [List.pairwise_map]
    exact hsorted.imp_of_mem fun ha hb hlt =>
      (hwhole _ ha).timestampMicros_lt (hwhole _ hb) hlt
  · rw [createContext, hhistory]
    rfl

end History

/-- An event of one vehicle, at some seconds since the epoch. -/
def eventAt (secs : ℤ) (h : minSecs ≤ secs ∧ secs ≤ maxSecs) (metres : ℤ) : RawEvent Milestone :=
  ⟨⟨1⟩, ⟨metres⟩, ⟨secs, 0, h, Or.inl (by decide)⟩⟩

/-- A lane with a redelivered entry. -/
def copiedLane : List (RawEvent Milestone) :=
  [eventAt 60 (by decide) 600, eventAt 30 (by decide) 300, eventAt 60 (by decide) 600]

/-- Ten seconds behind that lane. -/
theorem createContext_spec_copied :
    LongestRunContext ⟨60000000000, 1000, 3, 100⟩ (none : Option (Trip ℕ Milestone)) copiedLane
      ⟨⟨1⟩, ⟨70, 0, by decide, Or.inl (by decide)⟩, ⟨700⟩⟩
      (createContext ⟨60000000000, 1000, 3, 100⟩ none copiedLane
        ⟨⟨1⟩, ⟨70, 0, by decide, Or.inl (by decide)⟩, ⟨700⟩⟩) := by
  refine createContext_spec _ _ ⟨?_, ?_⟩ ?_ ?_
  · exact DateTime.wholeMicros_iff.mpr (by decide)
  · simp only [DateTime.wholeMicros_iff]
    decide
  · decide
  · decide

end Settings

end Routers
