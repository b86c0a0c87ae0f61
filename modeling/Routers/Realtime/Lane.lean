import Routers.Realtime.Worker

/-!
# The lane of a vehicle

The gate lets an event through only if it is later than the last of the lane.  A lane read back
from the archive ends no earlier than one that was evicted: the writer appends in the order of
sending, and an event that is waited for is sent last.  So the gate is as shut after as before,
for the archived form of an event is no earlier than the event, unless something is cut off it.

## Main definitions

* `InOrder` — a lane in order.
* `Pipeline.Writing` — what the writer keeps to.
* `Pipeline.Guarded` — nothing up to a time gets past the gate.

## Main results

* `Pipeline.gate_cases` — the gate.
* `Pipeline.Writing.step`, `Runs.writing` — the writer keeps to it.
* `Pipeline.Guarded.step`, `Runs.guarded` — **the gate stays shut behind what is done.**

## References

`src/libs/routers_realtime/bin/orchestrator.rs`.
-/

namespace Routers

variable {E P : Type} {c : Settings}

/-! ### Reading a lane back -/

/-- A list is mapped if all of its elements are. -/
theorem mem_mapM {α β : Type} {f : α → Option β} {l : List α} {l' : List β}
    (h : l.mapM f = some l') :
    (∀ b ∈ l', ∃ a ∈ l, f a = some b) ∧ ∀ a ∈ l, ∃ b ∈ l', f a = some b := by
  induction l generalizing l' with
  | nil =>
    cases h
    simp
  | cons a l ih =>
    rw [List.mapM_cons] at h
    obtain ⟨b, hb, h⟩ := Option.bind_eq_some_iff.mp h
    obtain ⟨bs, hbs, h⟩ := Option.bind_eq_some_iff.mp h
    cases h
    obtain ⟨hall, hall'⟩ := ih hbs
    constructor
    · intro x hx
      rcases List.mem_cons.mp hx with rfl | hx
      · exact ⟨a, List.mem_cons_self, hb⟩
      · obtain ⟨y, hy, hyx⟩ := hall x hx
        exact ⟨y, List.mem_cons_of_mem _ hy, hyx⟩
    · intro x hx
      rcases List.mem_cons.mp hx with rfl | hx
      · exact ⟨b, List.mem_cons_self, hb⟩
      · obtain ⟨y, hy, hyx⟩ := hall' x hx
        exact ⟨y, List.mem_cons_of_mem _ hy, hyx⟩

/-- A lane in order. -/
def InOrder (lane : List (RawEvent P)) : Prop :=
  lane.Pairwise fun a b => a.timestamp ≤ b.timestamp

/-- The last of a lane in order is the latest. -/
theorem InOrder.le_last {lane : List (RawEvent P)} (h : InOrder lane) {last event : RawEvent P}
    (hlast : lane.getLast? = some last) (hevent : event ∈ lane) :
    event.timestamp ≤ last.timestamp := by
  obtain ⟨rest, rfl⟩ := List.getLast?_eq_some_iff.mp hlast
  rcases List.mem_append.mp hevent with hevent | hevent
  · exact (List.pairwise_append.mp h).2.2 event hevent last (List.mem_singleton_self _)
  · rw [List.mem_singleton.mp hevent]

theorem gated_eq_true_iff {lane : List (RawEvent P)} {payload : Payload P} :
    gated lane payload = true ↔
      ∃ last, lane.getLast? = some last ∧ payload.timestamp ≤ last.timestamp := by
  unfold gated
  cases lane.getLast? <;> simp

/-- What a lane is read back from, and what is read back at least. -/
theorem warmed_spec {archive : List (StoredEvent P)} {lane : List (RawEvent P)}
    (h : c.warmed archive = some lane) :
    InOrder lane ∧ (∀ event ∈ lane, ∃ stored ∈ archive, stored.load = some event) ∧
      (1 ≤ c.contextWindow → ∀ stored, archive.getLast? = some stored →
        ∃ event ∈ lane, stored.load = some event) := by
  obtain ⟨events, hevents, rfl⟩ := Option.map_eq_some_iff.mp h
  obtain ⟨hof, hall⟩ := mem_mapM hevents
  refine ⟨List.pairwise_insertionSort _ events, fun event hevent => ?_,
    fun hwindow stored hstored => ?_⟩
  · obtain ⟨stored, hstored, hload⟩ := hof event ((List.mem_insertionSort _).mp hevent)
    exact ⟨stored, List.mem_reverse.mp (List.mem_of_mem_take hstored), hload⟩
  · obtain ⟨rest, rfl⟩ := List.getLast?_eq_some_iff.mp hstored
    obtain ⟨n, hn⟩ : ∃ n, c.contextWindow * 3 = n + 1 := ⟨c.contextWindow * 3 - 1, by omega⟩
    obtain ⟨event, hevent, hload⟩ := hall stored (by
      rw [List.reverse_append, List.reverse_singleton, List.singleton_append, hn,
        List.take_succ_cons]
      exact List.mem_cons_self)
    exact ⟨event, (List.mem_insertionSort _).mpr hevent, hload⟩

/-! ### Letting an event in -/

/-- What is in a lane behind an event that has entered it. -/
theorem entered_suffix (lane : List (RawEvent P)) (event : RawEvent P) :
    c.entered lane event <:+ lane ++ [event] := by
  unfold Settings.entered
  dsimp only
  split
  · exact List.drop_suffix _ _
  · exact List.suffix_rfl

theorem getLast?_entered (hwindow : 1 ≤ c.contextWindow) (lane : List (RawEvent P))
    (event : RawEvent P) : (c.entered lane event).getLast? = some event := by
  unfold Settings.entered
  dsimp only
  split
  · rename_i h
    rw [List.getLast?_drop, if_neg (by omega), List.getLast?_concat]
  · rw [List.getLast?_concat]

/-- A later event leaves a lane in order. -/
theorem InOrder.entered {lane : List (RawEvent P)} (h : InOrder lane) {event : RawEvent P}
    (hlater : ∀ before ∈ lane, before.timestamp < event.timestamp) :
    InOrder (c.entered lane event) := by
  have happend : InOrder (lane ++ [event]) := by
    refine List.pairwise_append.mpr ⟨h, List.pairwise_singleton _ _, fun a ha b hb => ?_⟩
    rw [List.mem_singleton.mp hb]
    exact (hlater a ha).le
  exact happend.sublist (entered_suffix lane event).sublist

/-! ### The gate -/

namespace Stage

/-- The writer's report changes nothing but that the event waited for is archived. -/
theorem report_cases (stage : Stage E P) (tickets : List ℕ) :
    stage.report tickets = stage ∨
      ∃ d ticket, stage = .waiting d ticket ∧ ticket ∈ tickets ∧
        stage.report tickets = .flushed d := by
  cases stage with
  | waiting d ticket =>
    by_cases h : ticket ∈ tickets
    · exact Or.inr ⟨d, ticket, rfl, h, if_pos h⟩
    · exact Or.inl (if_neg h)
  | _ => exact Or.inl rfl

theorem admitted_report (stage : Stage E P) (tickets : List ℕ) :
    (stage.report tickets).admitted = stage.admitted := by
  obtain h | ⟨d, ticket, rfl, -, h⟩ := stage.report_cases tickets
  · rw [h]
  · rw [h]
    rfl

theorem dispatch_report (stage : Stage E P) (tickets : List ℕ) :
    (stage.report tickets).dispatch = stage.dispatch := by
  cases stage with
  | waiting d ticket =>
    rw [report]
    split <;> rfl
  | _ => rfl

theorem dispatch_of_admitted {stage : Stage E P} {d : Dispatch P} (h : stage.admitted = some d) :
    stage.dispatch = some d := by
  cases stage with
  | idle => cases h
  | started => cases h
  | finished => cases h
  | _ => exact h

end Stage

variable [Geometry P] [DecidableEq P]

/-- **The gate** drops an event that is no later than the last of the lane; a later one is solved. -/
theorem Pipeline.gate_cases (c : Settings) (s : Pipeline E P) (lane : List (RawEvent P))
    (d : Dispatch P) :
    (∃ last, lane.getLast? = some last ∧ d.payload.timestamp ≤ last.timestamp ∧
        s.gate c lane d = s.finish d (.dropped "stale_or_duplicate")) ∨
      ((∀ last, lane.getLast? = some last → last.timestamp < d.payload.timestamp) ∧
        s.gate c lane d
          = { s with stage := .solving d (c.createContext s.trips lane d.payload) }) := by
  unfold Pipeline.gate
  by_cases h : gated lane d.payload = true
  · rw [if_pos h]
    obtain ⟨last, hlast, hle⟩ := gated_eq_true_iff.mp h
    exact Or.inl ⟨last, hlast, hle, rfl⟩
  · rw [if_neg h]
    refine Or.inr ⟨fun last hlast => not_le.mp fun hle => ?_, rfl⟩
    exact h (gated_eq_true_iff.mpr ⟨last, hlast, hle⟩)

namespace Pipeline

section Gate

variable (c) (s : Pipeline E P) (lane : List (RawEvent P)) (d : Dispatch P)

theorem archived_gate : (s.gate c lane d).archived = s.archived := by
  unfold gate
  split <;> rfl

theorem entries_gate : (s.gate c lane d).entries = s.entries := by
  unfold gate
  split <;> rfl

/-- The gate returns nothing but a drop. -/
theorem returned_gate : (s.gate c lane d).returned = s.returned ∨
    (s.gate c lane d).returned = s.returned ++ [(d.payload, .dropped "stale_or_duplicate")] := by
  obtain ⟨-, -, -, heq⟩ | ⟨-, heq⟩ := gate_cases c s lane d
  · exact Or.inr (by rw [heq]; rfl)
  · exact Or.inl (by rw [heq])

theorem returned_subset_gate : s.returned ⊆ (s.gate c lane d).returned := by
  obtain heq | heq := s.returned_gate c lane d
  · rw [heq]
    exact List.Subset.refl _
  · rw [heq]
    exact List.subset_append_left _ _

end Gate

/-! ### The writer -/

/-- What the writer keeps to: it archives what it is sent in order, and reports a ticket when its
event is the last of the archive. -/
structure Writing (s : Pipeline E P) : Prop where
  batch_le : s.batch ≤ s.queue.length
  written_le : s.written ≤ s.batch
  tickets : (s.queue.map Prod.snd).Pairwise (· < ·)
  tickets_lt : ∀ entry ∈ s.queue, entry.2 < s.sends
  /-- What has been written last ends the archive. -/
  written_last : ∀ n entry, s.written = n + 1 → s.queue[n]? = some entry →
    s.archive.getLast? = some entry.1.store
  archive_subset : s.archive ⊆ s.archived
  /-- The event waited for was sent last. -/
  waiting : ∀ d ticket, s.stage = .waiting d ticket →
    s.queue.getLast? = some (d.payload.asEvent, ticket)
  /-- The event let go of ends the archive, and nothing else is under way. -/
  flushed : ∀ d, s.stage = .flushed d →
    s.queue = [] ∧ s.archive.getLast? = some d.payload.asEvent.store

omit [Geometry P] [DecidableEq P] in
theorem writing_new : (new : Pipeline E P).Writing where
  batch_le := le_rfl
  written_le := le_rfl
  tickets := List.Pairwise.nil
  tickets_lt := by simp [new]
  written_last := by simp [new]
  archive_subset := List.Subset.refl _
  waiting := by simp [new]
  flushed := by simp [new]

section Writer

omit [Geometry P] [DecidableEq P]

variable {s : Pipeline E P}

theorem Writing.send (hs : s.Writing) (d : Dispatch P) :
    ({ s with
      stage := .waiting d s.sends
      queue := s.queue ++ [(d.payload.asEvent, s.sends)]
      sends := s.sends + 1 } : Pipeline E P).Writing where
  batch_le := hs.batch_le.trans (by simp)
  written_le := hs.written_le
  tickets := by
    rw [List.map_append, List.pairwise_append]
    refine ⟨hs.tickets, List.pairwise_singleton _ _, fun ticket hticket last hlast => ?_⟩
    obtain ⟨entry, hentry, rfl⟩ := List.mem_map.mp hticket
    rw [List.mem_singleton.mp hlast]
    exact hs.tickets_lt entry hentry
  tickets_lt := by
    intro entry hentry
    rcases List.mem_append.mp hentry with hentry | hentry
    · exact (hs.tickets_lt entry hentry).trans (Nat.lt_succ_self _)
    · rw [List.mem_singleton.mp hentry]
      exact Nat.lt_succ_self _
  written_last := by
    intro n entry hn hentry
    have hle := hs.written_le.trans hs.batch_le
    have hlt : n < s.queue.length := by
      have : s.written = n + 1 := hn
      omega
    rw [List.getElem?_append_left hlt] at hentry
    exact hs.written_last n entry hn hentry
  archive_subset := hs.archive_subset
  waiting := by
    intro d' ticket hstage
    cases hstage
    rw [List.getLast?_concat]
  flushed := by simp

theorem Writing.append (hs : s.Writing) (hhistory : 1 ≤ c.history) {entry : RawEvent P × ℕ}
    {kept : ℕ} (hentry : (s.queue.take s.batch)[s.written]? = some entry)
    (hkept : min c.history (s.archive.length + 1) ≤ kept) :
    ({ s with
      written := s.written + 1
      archive := (s.archive ++ [entry.1.store]).drop (s.archive.length + 1 - kept)
      archived := s.archived ++ [entry.1.store] } : Pipeline E P).Writing := by
  rw [List.getElem?_take] at hentry
  split at hentry
  · rename_i hlt
    refine { hs with
      written_le := hlt
      written_last := fun n entry' hn hentry' => ?_
      archive_subset := fun stored hstored => ?_
      flushed := fun d hstage => ?_ }
    · have hn' : s.written = n := Nat.succ.inj hn
      rw [← hn'] at hentry'
      have hsame : entry = entry' := Option.some.inj (hentry.symm.trans hentry')
      rw [List.getLast?_drop, if_neg, List.getLast?_concat, hsame]
      rw [List.length_append, List.length_singleton]
      omega
    · rcases List.mem_append.mp (List.mem_of_mem_drop hstored) with hstored | hstored
      · exact List.mem_append_left _ (hs.archive_subset hstored)
      · exact List.mem_append_right _ hstored
    · -- with nothing in the queue there is nothing to append
      have hnil : s.queue = [] := (hs.flushed d hstage).1
      rw [hnil] at hentry
      cases hentry
  · cases hentry

/-- A batch that contains the event waited for is the whole queue. -/
theorem Writing.length_le (hs : s.Writing) {d : Dispatch P} {ticket : ℕ}
    (hstage : s.stage = .waiting d ticket)
    (hticket : ticket ∈ (s.queue.take s.batch).map Prod.snd) : s.queue.length ≤ s.batch := by
  obtain ⟨rest, hrest⟩ := List.getLast?_eq_some_iff.mp (hs.waiting d ticket hstage)
  by_contra hlt
  have hbatch : s.batch ≤ rest.length := by
    rw [hrest, List.length_append, List.length_singleton] at hlt
    omega
  rw [hrest, List.take_append_of_le_length hbatch] at hticket
  -- for tickets go up
  have htickets := hs.tickets
  rw [hrest, List.map_append, List.pairwise_append] at htickets
  obtain ⟨entry, hentry, rfl⟩ := List.mem_map.mp hticket
  exact absurd (htickets.2.2 entry.2 (List.mem_map_of_mem (List.mem_of_mem_take hentry)) entry.2
    (List.mem_singleton_self _)) (lt_irrefl _)

theorem Writing.flush (hs : s.Writing) (hwritten : s.written = s.batch) :
    ({ s with
      stage := s.stage.report ((s.queue.take s.batch).map Prod.snd)
      queue := s.queue.drop s.batch
      batch := 0
      written := 0 } : Pipeline E P).Writing where
  batch_le := Nat.zero_le _
  written_le := le_rfl
  tickets := by
    rw [List.map_drop]
    exact hs.tickets.sublist (List.drop_sublist _ _)
  tickets_lt entry hentry := hs.tickets_lt entry (List.mem_of_mem_drop hentry)
  written_last := by simp
  archive_subset := hs.archive_subset
  waiting := by
    intro d ticket hstage
    obtain heq | ⟨d', ticket', -, -, heq⟩ :=
      s.stage.report_cases ((s.queue.take s.batch).map Prod.snd)
    · have hsame : s.stage = .waiting d ticket := heq.symm.trans hstage
      have hlast := hs.waiting d ticket hsame
      rw [List.getLast?_drop, if_neg, hlast]
      -- otherwise its ticket would have been reported
      intro hle
      rw [hsame, List.take_of_length_le hle] at heq
      have hmem : ticket ∈ s.queue.map Prod.snd := by
        obtain ⟨rest, hrest⟩ := List.getLast?_eq_some_iff.mp hlast
        rw [hrest]
        simp
      rw [Stage.report, if_pos hmem] at heq
      cases heq
    · cases heq.symm.trans hstage
  flushed := by
    intro d hstage
    obtain heq | ⟨d', ticket, hwaiting, hticket, heq⟩ :=
      s.stage.report_cases ((s.queue.take s.batch).map Prod.snd)
    · obtain ⟨hnil, hlast⟩ := hs.flushed d (heq.symm.trans hstage)
      exact ⟨by rw [hnil, List.drop_nil], hlast⟩
    · cases heq.symm.trans hstage
      have hle := hs.length_le hwaiting hticket
      have hbatch : s.batch = s.queue.length := le_antisymm hs.batch_le hle
      refine ⟨List.drop_eq_nil_of_le hle, ?_⟩
      obtain ⟨rest, hrest⟩ := List.getLast?_eq_some_iff.mp (hs.waiting d ticket hwaiting)
      refine hs.written_last rest.length (d.payload.asEvent, ticket) ?_ ?_
      · rw [hwritten, hbatch, hrest, List.length_append, List.length_singleton]
      · rw [hrest, List.getElem?_concat_length]

end Writer

/-- The gate is nothing to the writer. -/
theorem Writing.gate {s : Pipeline E P} (hs : s.Writing) (lane : List (RawEvent P))
    (d : Dispatch P) : (s.gate c lane d).Writing := by
  obtain ⟨-, -, -, heq⟩ | ⟨-, heq⟩ := gate_cases c s lane d
  · rw [heq]
    exact { hs with waiting := by simp [finish], flushed := by simp [finish] }
  · rw [heq]
    exact { hs with waiting := by simp, flushed := by simp }

theorem Writing.step {allowed : Payload P → Prop} (hhistory : 1 ≤ c.history) {s s' : Pipeline E P}
    (hs : s.Writing) (h : Step c allowed s s') : s'.Writing := by
  cases h with
  | deliver d hstage hallowed => exact { hs with waiting := by simp, flushed := by simp }
  | warm d lane hstage hlane hwarmed =>
    exact Writing.gate (s := { s with histories := some lane }) { hs with } lane d
  | gate d lane hstage hlane => exact hs.gate lane d
  | noMatch d context hstage => exact { hs with waiting := by simp, flushed := by simp }
  | solved d context diff trip hstage => exact { hs with waiting := by simp, flushed := by simp }
  | publish d solve hstage => exact { hs with waiting := by simp, flushed := by simp }
  | commit d solve hstage => exact { hs with waiting := by simp, flushed := by simp }
  | send d hstage => exact hs.send d
  | collect n hbatch hn =>
    exact { hs with batch_le := hn, written_le := Nat.zero_le n, written_last := by simp }
  | append entry kept hentry hkept hle => exact hs.append hhistory hentry hkept
  | retry => exact { hs with written_le := Nat.zero_le _, written_last := by simp }
  | flush hwritten => exact hs.flush hwritten
  | enter d hstage => exact { hs with waiting := by simp [finish], flushed := by simp [finish] }
  | ack d outcome hstage => exact { hs with waiting := by simp, flushed := by simp }
  | ackLost d outcome hstage => exact { hs with waiting := by simp, flushed := by simp }
  | fail d hstage => exact { hs with waiting := by simp, flushed := by simp }
  | evictLane => exact { hs with }
  | evictTrip => exact { hs with }
  | restart =>
    exact
      { batch_le := le_rfl
        written_le := le_rfl
        tickets := List.Pairwise.nil
        tickets_lt := by simp
        written_last := by simp
        archive_subset := hs.archive_subset
        waiting := by simp
        flushed := by simp }

/-! ### The gate stays shut -/

/-- Nothing up to a time gets past the gate: neither past the lane, nor past one read back, and
nothing that could be appended is from before. -/
structure Guarded (time : DateTime) (s : Pipeline E P) : Prop where
  lane : ∀ lane, s.histories = some lane →
    ∃ last, lane.getLast? = some last ∧ time ≤ last.timestamp
  archive : ∃ stored, s.archive.getLast? = some stored ∧
    ∀ event, stored.load = some event → time ≤ event.timestamp
  queue : ∀ entry ∈ s.queue, time < entry.1.timestamp
  admitted : ∀ d, s.stage.admitted = some d → time < d.payload.timestamp

omit [Geometry P] [DecidableEq P] in
/-- What is no earlier than a time that is not cut off is stored no earlier. -/
theorem le_load_store {time : DateTime} (hkept : time.Kept) {event : RawEvent P}
    (hle : time ≤ event.timestamp) {loaded : RawEvent P} (h : event.store.load = some loaded) :
    time ≤ loaded.timestamp :=
  DateTime.le_of_fromMicros hkept hle (StoredEvent.load_eq_some h)

/-- An event that gets past the gate of a lane is later than what is in it. -/
theorem Guarded.gate {time : DateTime} {s : Pipeline E P} (hs : s.Guarded time)
    {lane : List (RawEvent P)} (hlane : s.histories = some lane) (d : Dispatch P) :
    (s.gate c lane d).Guarded time := by
  obtain ⟨last, hlast, hle⟩ := hs.lane lane hlane
  obtain ⟨-, -, -, heq⟩ | ⟨hlt, heq⟩ := gate_cases c s lane d
  · rw [heq]
    exact { hs with admitted := by simp [finish, Stage.admitted] }
  · rw [heq]
    refine { hs with admitted := fun d' hd => ?_ }
    cases hd
    exact hle.trans_lt (hlt last hlast)

omit [Geometry P] [DecidableEq P] in
/-- A lane read back ends no earlier than the archive does. -/
theorem Guarded.warmed (hwindow : 1 ≤ c.contextWindow) {time : DateTime} {s : Pipeline E P}
    (hs : s.Guarded time) {lane : List (RawEvent P)} (hwarmed : c.warmed s.archive = some lane) :
    ({ s with histories := some lane } : Pipeline E P).Guarded time := by
  refine { hs with lane := fun lane' hlane' => ?_ }
  cases hlane'
  obtain ⟨horder, -, hlast⟩ := warmed_spec hwarmed
  obtain ⟨stored, hstored, hle⟩ := hs.archive
  obtain ⟨event, hevent, hload⟩ := hlast hwindow stored hstored
  obtain ⟨last, hlast⟩ :=
    Option.isSome_iff_exists.mp (List.getLast?_isSome.mpr (List.ne_nil_of_mem hevent))
  exact ⟨last, hlast, (hle event hload).trans (horder.le_last hlast hevent)⟩

/-- **A gate stays shut** for a time that is not cut off, whatever happens. -/
theorem Guarded.step {allowed : Payload P → Prop} (hwindow : 1 ≤ c.contextWindow)
    (hhistory : 1 ≤ c.history) {time : DateTime} (hkept : time.Kept) {s s' : Pipeline E P}
    (hs : s.Guarded time) (h : Step c allowed s s') : s'.Guarded time := by
  cases h with
  | deliver d hstage hallowed => exact { hs with admitted := by simp [Stage.admitted] }
  | warm d lane hstage hlane hwarmed =>
    exact (hs.warmed hwindow hwarmed).gate rfl d
  | gate d lane hstage hlane => exact hs.gate hlane d
  | noMatch d context hstage =>
    exact { hs with admitted := fun d' hd => hs.admitted d' (by rw [hstage]; exact hd) }
  | solved d context diff trip hstage =>
    exact { hs with admitted := fun d' hd => hs.admitted d' (by rw [hstage]; exact hd) }
  | publish d solve hstage =>
    exact { hs with admitted := fun d' hd => hs.admitted d' (by rw [hstage]; exact hd) }
  | commit d solve hstage =>
    exact { hs with admitted := fun d' hd => hs.admitted d' (by rw [hstage]; exact hd) }
  | send d hstage =>
    have hlt : time < d.payload.timestamp := hs.admitted d (by rw [hstage]; rfl)
    refine { hs with queue := fun entry hentry => ?_, admitted := fun d' hd => ?_ }
    · rcases List.mem_append.mp hentry with hentry | hentry
      · exact hs.queue entry hentry
      · rw [List.mem_singleton.mp hentry]
        exact hlt
    · cases hd
      exact hlt
  | collect n hbatch hn => exact { hs with }
  | append entry kept hentry hmin hle =>
    refine { hs with archive := ⟨entry.1.store, ?_, fun event hload => ?_⟩ }
    · rw [List.getLast?_drop, if_neg, List.getLast?_concat]
      rw [List.length_append, List.length_singleton]
      omega
    · have hmem := List.mem_of_mem_take (List.mem_of_getElem? hentry)
      exact le_load_store hkept (hs.queue entry hmem).le hload
  | retry => exact { hs with }
  | flush hwritten =>
    exact { hs with
      queue := fun entry hentry => hs.queue entry (List.mem_of_mem_drop hentry)
      admitted := fun d hd => hs.admitted d (by rwa [Stage.admitted_report] at hd) }
  | enter d hstage =>
    have hlt : time < d.payload.timestamp := hs.admitted d (by rw [hstage]; rfl)
    refine { hs with lane := fun lane hlane => ?_, admitted := by simp [finish, Stage.admitted] }
    obtain ⟨before, -, rfl⟩ := Option.map_eq_some_iff.mp hlane
    exact ⟨d.payload.asEvent, getLast?_entered hwindow before _, hlt.le⟩
  | ack d outcome hstage => exact { hs with admitted := by simp [Stage.admitted] }
  | ackLost d outcome hstage => exact { hs with admitted := by simp [Stage.admitted] }
  | fail d hstage => exact { hs with admitted := by simp [Stage.admitted] }
  | evictLane => exact { hs with lane := by simp }
  | evictTrip => exact { hs with }
  | restart =>
    exact { hs with lane := by simp, queue := by simp, admitted := by simp [Stage.admitted] }

omit [Geometry P] [DecidableEq P] in
/-- The gate is shut behind an event that is done. -/
theorem Writing.guarded {s : Pipeline E P} (hs : s.Writing) (hwindow : 1 ≤ c.contextWindow)
    {d : Dispatch P} (hstage : s.stage = .flushed d) (hkept : d.payload.timestamp.Kept) :
    ({ s with
      histories := s.histories.map fun lane => c.entered lane d.payload.asEvent
      entries := s.entries ++ [d.payload.asEvent] }.finish d .done).Guarded
        d.payload.timestamp := by
  obtain ⟨hnil, hlast⟩ := hs.flushed d hstage
  constructor
  · intro lane hlane
    obtain ⟨before, -, rfl⟩ := Option.map_eq_some_iff.mp hlane
    exact ⟨d.payload.asEvent, getLast?_entered hwindow before _, le_rfl⟩
  · exact ⟨_, hlast, fun event hload => le_load_store hkept le_rfl hload⟩
  · intro entry hentry
    rw [show s.queue = [] from hnil] at hentry
    cases hentry
  · simp [finish, Stage.admitted]

/-- What a step returns: a drop, or that an event is done that was behind the gate. -/
theorem returned_cases {allowed : Payload P → Prop} {s s' : Pipeline E P}
    (h : Step c allowed s s') : s'.returned = s.returned ∨
      (∃ d, s.stage = .started d ∧
        s'.returned = s.returned ++ [(d.payload, .dropped "stale_or_duplicate")]) ∨
      ∃ d, s.stage = .flushed d ∧
        s' = { s with
          histories := s.histories.map fun lane => c.entered lane d.payload.asEvent
          entries := s.entries ++ [d.payload.asEvent] }.finish d .done := by
  cases h with
  | warm d lane hstage hlane hwarmed =>
    exact (returned_gate c { s with histories := some lane } lane d).imp_right fun heq =>
      Or.inl ⟨d, hstage, heq⟩
  | gate d lane hstage hlane =>
    exact (returned_gate c s lane d).imp_right fun heq => Or.inl ⟨d, hstage, heq⟩
  | enter d hstage => exact Or.inr (Or.inr ⟨d, hstage, rfl⟩)
  | _ => exact Or.inl rfl

end Pipeline

/-! ### Runs -/

section Runs

variable {allowed : Payload P → Prop} {s : Pipeline E P}

theorem Runs.writing (hhistory : 1 ≤ c.history) (h : Runs c allowed .new s) : s.Writing := by
  induction h with
  | refl => exact Pipeline.writing_new
  | tail _ hstep ih => exact ih.step hhistory hstep

/-- The gate is shut behind whatever is done. -/
theorem Runs.guarded (hwindow : 1 ≤ c.contextWindow) (hhistory : 1 ≤ c.history)
    (h : Runs c allowed .new s) {payload : Payload P} (hkept : payload.timestamp.Kept)
    (hdone : (payload, .done) ∈ s.returned) : s.Guarded payload.timestamp := by
  induction h with
  | refl => cases hdone
  | tail hrun hstep ih =>
    obtain heq | ⟨d, -, heq⟩ | ⟨d, hstage, rfl⟩ := Pipeline.returned_cases hstep
    · exact (ih (heq ▸ hdone)).step hwindow hhistory hkept hstep
    · rw [heq] at hdone
      rcases List.mem_append.mp hdone with hdone | hdone
      · exact (ih hdone).step hwindow hhistory hkept hstep
      · cases List.mem_singleton.mp hdone
    · rcases List.mem_append.mp hdone with hdone | hdone
      · exact (ih hdone).step hwindow hhistory hkept hstep
      · cases List.mem_singleton.mp hdone
        exact (Runs.writing hhistory hrun).guarded hwindow hstage hkept

end Runs

end Routers
