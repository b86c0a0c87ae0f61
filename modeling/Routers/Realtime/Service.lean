import Routers.Realtime.LaneSafety
import Routers.Viewer.Rebuild

/-!
# Matchers at work

A worker keeps the trip it has committed last, so that a matcher need not weigh all of the history
again.  The trip can be cut, evicted or restarted, and a matcher that misses a node of it turns it
down.  None of this shows: the layers of an emission are what the matcher of the event's shard would
have emitted for the history alone, unless it goes on with a trip of another shard.

## Main definitions

* `MatchReply.layers` — what a reply emits.
* `Matching.reply` — what a solve replies once all is pushed.
* `Settings.contextOrigins` — the history that a matcher is asked for.
* `Served`, `ServedRuns` — a lane whose solves are those of the shards' matchers.
* `Matching.Adopts` — a matcher goes on with a trip that is not its own.
* `Whole` — an emission is that of the history behind an event the worker was at.
* `Pipeline.Stateless` — what the solves of a lane are.

## Main results

* `Matching.layers_solve_reconcile` — **the trip resumed does not show.**
* `emissions_stateless` — **every emission is that of its history.**

## References

`src/libs/routers_realtime/bin/matcher.rs`, `src/libs/routers_realtime/bin/orchestrator.rs` and
`src/libs/routers_transition/src/matcher/continuation.rs`.
-/

namespace Routers

variable {E P M R : Type}

/-- What a reply emits. -/
def MatchReply.layers : MatchReply E P → Option (List (MatchedLayer E P))
  | solved diff _ => some diff.layers
  | noMatch => none

theorem MatchReply.exists_solved {reply : MatchReply E P} (h : reply.layers.isSome) :
    ∃ diff trip, reply = .solved diff trip := by
  cases reply with
  | solved diff trip => exact ⟨diff, trip, rfl⟩
  | noMatch => cases h

/-! ### The trip resumed -/

namespace Matching

variable [DecidableEq E] [Inhabited E] [Geometry P] [Inhabited P] [DecidableEq P]

/-- What a solve replies once all is pushed. -/
def reply (s : Matching E P M R) (trip : Trip E P) (downgraded : Bool) : MatchReply E P :=
  if trip.origins.isEmpty then .noMatch
  else
    match s.matcher.solve trip with
    | (.error _, _) => .noMatch
    | (.ok _, trip) =>
      let origins := trip.origins
      match s.matcher.snapshot trip with
      | (.error _, _) => .noMatch
      | (.ok solution, trip) =>
        let diff := { MatchedDiff.new solution origins s.network 0 with downgraded := downgraded }
        .solved diff (Matcher.cutBehind trip)

/-- A trip whose nodes are all here is gone on with. -/
theorem solve_supported (s : Matching E P M R) {trip : Trip E P}
    (h : s.matcher.supports trip = true) (fresh : List (Origin P)) :
    s.solve (.resume trip fresh) = s.reply (s.matcher.pushAll trip fresh) false := by
  simp only [solve, h, Bool.not_true, Bool.false_eq_true, if_false]
  rfl

/-- Of another trip only the observations are taken. -/
theorem solve_unsupported (s : Matching E P M R) {trip : Trip E P}
    (h : s.matcher.supports trip = false) (fresh : List (Origin P)) :
    s.solve (.resume trip fresh)
      = s.reply (s.matcher.pushAll Trip.new (trip.origins ++ fresh)) true := by
  simp only [solve, h, Bool.not_false, if_true]
  rfl

section Reply

variable (s : Matching E P M R) {trip trip' : Trip E P} (h : Trip.Reached (· = s.matcher) trip)
include h

/-- A reply emits the snapshot of the trip, if there is one. -/
theorem layers_reply (downgraded : Bool) : (s.reply trip downgraded).layers
    = (s.matcher.snapshot trip).1.toOption.map fun solution => (s.emit solution trip).layers := by
  obtain ⟨horigins, -⟩ := s.matcher.solve_frame h.inv
  unfold reply
  split
  · -- a trip of nothing has no snapshot
    rename_i hempty
    have hstate := h.inv.wellFormed.empty_iff.mpr (List.isEmpty_iff.mp hempty)
    rw [Matcher.snapshot, Matcher.collapse, s.matcher.solve_empty hstate]
    rfl
  cases hsolve : s.matcher.solve trip with
  | mk r after =>
    rw [hsolve] at horigins
    cases r with
    | error e =>
      rw [Matcher.snapshot, Matcher.collapse, hsolve]
      rfl
    | ok path =>
      dsimp only at horigins ⊢
      rw [s.matcher.snapshot_solve hsolve, horigins]
      rcases s.matcher.snapshot trip with ⟨_ | solution, left⟩
      · rfl
      · rfl

omit h in
/-- What a reply leaves of the trip. -/
theorem reached_reply {kind : Matcher E P M R → Prop} (hkind : kind s.matcher)
    (h : Trip.Reached kind trip) {downgraded : Bool} {diff : MatchedDiff E P} {left : Trip E P}
    (hreply : s.reply trip downgraded = .solved diff left) : Trip.Reached kind left := by
  unfold reply at hreply
  split at hreply
  · cases hreply
  have hreached : Trip.Reached kind (s.matcher.solve trip).2 := .solve h hkind
  rcases hsolve : s.matcher.solve trip with ⟨_ | path, after⟩
  · rw [hsolve] at hreply
    cases hreply
  · rw [hsolve] at hreply hreached
    dsimp only at hreply
    have hsnapshot : Trip.Reached kind (s.matcher.snapshot after).2 := .snapshot hreached hkind
    rcases hcollapsed : s.matcher.snapshot after with ⟨_ | solution, solved⟩
    · rw [hcollapsed] at hreply
      cases hreply
    · rw [hcollapsed] at hreply hsnapshot
      cases hreply
      exact Matcher.reached_cutBehind hsnapshot

/-- A trip of the same observations has a snapshot too, of the same layers. -/
theorem exists_snapshot_congr (h' : Trip.Reached (· = s.matcher) trip')
    (horigins : trip.origins = trip'.origins) {first : CollapsedPath E P} {after : Trip E P}
    (hfirst : s.matcher.snapshot trip = (.ok first, after)) :
    ∃ second after', s.matcher.snapshot trip' = (.ok second, after') ∧
      (s.emit first trip).layers = (s.emit second trip').layers := by
  obtain ⟨path, hsolve, -, -⟩ := Matcher.snapshot_ok h.inv hfirst
  rw [Matcher.solve_eq_of_origins s.deterministic h.inv h'.inv (h.coherent s.deterministic)
    (h'.coherent s.deterministic) horigins] at hsolve
  obtain ⟨second, after', hsecond⟩ : ∃ second after',
      s.matcher.snapshot trip' = (.ok second, after') := by
    unfold Matcher.snapshot Matcher.collapse
    rcases hsolved : s.matcher.solve trip' with ⟨_ | path', after'⟩
    · rw [hsolved] at hsolve
      cases hsolve
    · exact ⟨_, _, rfl⟩
  refine ⟨second, after', hsecond, ?_⟩
  obtain ⟨t, q, s₁, -⟩ := Matcher.solution_of_snapshot s.deterministic h hfirst
  obtain ⟨t', q', s₂, -⟩ := Matcher.solution_of_snapshot s.deterministic h' hsecond
  -- the trellises are weighed alike, and so the solutions name the same nodes
  have hweighed := Matcher.weighed_eq_of_origins s.deterministic s₁.inv s₂.inv s₁.coherent
    s₂.coherent horigins s₁.trellis_eq s₂.trellis_eq
  obtain rfl : q = q' :=
    Except.ok.inj (s₁.solves.symm.trans ((congrArg _ hweighed).trans s₂.solves))
  have hpicked : ∀ k < trip.origins.length, first.picked k = second.picked k := fun k hk =>
    s₁.picked_congr s₂ hk (by rw [horigins]) rfl
  refine List.ext_getElem? fun k => ?_
  by_cases hk : k < trip.origins.length
  · exact s₁.getElem?_new_congr s₂ 0 hk (by rw [horigins]) (hpicked k hk) Iff.rfl
      fun _ => hpicked (k - 1) (by omega)
  · have hlen : (s.emit first trip).layers.length = trip.origins.length := s₁.length_new 0
    have hlen' : (s.emit second trip').layers.length = trip'.origins.length := s₂.length_new 0
    rw [List.getElem?_eq_none (by omega), List.getElem?_eq_none (by rw [hlen', ← horigins]; omega)]

/-- **The observations of a trip decide what is emitted of it.** -/
theorem layers_reply_congr (h' : Trip.Reached (· = s.matcher) trip')
    (horigins : trip.origins = trip'.origins) (downgraded downgraded' : Bool) :
    (s.reply trip downgraded).layers = (s.reply trip' downgraded').layers := by
  rw [s.layers_reply h, s.layers_reply h']
  rcases hfirst : s.matcher.snapshot trip with ⟨_ | first, after⟩
  · rcases hsecond : s.matcher.snapshot trip' with ⟨_ | second, after'⟩
    · rfl
    · obtain ⟨first, after, hfirst', -⟩ := s.exists_snapshot_congr h' h horigins.symm hsecond
      rw [hfirst] at hfirst'
      cases hfirst'
  · obtain ⟨second, after', hsecond, hlayers⟩ := s.exists_snapshot_congr h h' horigins hfirst
    rw [hsecond]
    exact congrArg some hlayers

end Reply

section Resume

variable (s : Matching E P M R)

omit [DecidableEq P] in
/-- Observations pushed by a matcher of a kind. -/
theorem reached_pushAll {kind : Matcher E P M R → Prop} (hkind : kind s.matcher)
    (fresh : List (Origin P)) :
    ∀ {trip : Trip E P}, Trip.Reached kind trip →
      Trip.Reached kind (s.matcher.pushAll trip fresh) := by
  induction fresh with
  | nil => exact fun h => h
  | cons origin fresh ih => exact fun h => ih (.push origin h hkind)

/-- What is left of a trip when it is solved. -/
theorem reached_solve {kind : Matcher E P M R → Prop} (hkind : kind s.matcher)
    {persisted : Option (Trip E P)}
    (h : ∀ trip, persisted = some trip → Trip.Reached kind trip) {history : List (Origin P)}
    {diff : MatchedDiff E P} {left : Trip E P}
    (hreply : s.solve (.reconcile persisted history) = .solved diff left) :
    Trip.Reached kind left := by
  cases hreconcile : Continuation.reconcile persisted history with
  | restart fresh =>
    rw [hreconcile] at hreply
    exact s.reached_reply hkind (s.reached_pushAll hkind fresh .new) hreply
  | resume retained fresh =>
    rw [hreconcile] at hreply
    cases persisted with
    | none => cases hreconcile
    | some trip =>
      cases hsupports : s.matcher.supports retained with
      | true =>
        have hretained : Trip.Reached kind retained := by
          obtain ⟨-, hrestart⟩ | ⟨-, hresume⟩ := Continuation.reconcile_cases trip history
          · cases hrestart.symm.trans hreconcile
          · cases hresume.symm.trans hreconcile
            exact .tail _ (h trip rfl)
        rw [s.solve_supported hsupports] at hreply
        exact s.reached_reply hkind (s.reached_pushAll hkind fresh hretained) hreply
      | false =>
        rw [s.solve_unsupported hsupports] at hreply
        exact s.reached_reply hkind (s.reached_pushAll hkind _ .new) hreply

/-- A trip that a matcher has not led to, but misses no node of, is gone on with. -/
def Adopts (s : Matching E P M R) (persisted : Option (Trip E P)) (history : List (Origin P)) :
    Prop :=
  ∃ trip retained fresh, persisted = some trip ∧ ¬ Trip.Reached (· = s.matcher) trip ∧
    Continuation.reconcile persisted history = .resume retained fresh ∧
    s.matcher.supports retained = true

/-- **The trip resumed does not show**: what is emitted for a history is the same whatever trip it
is reconciled with, if the matcher goes on with no trip but its own. -/
theorem layers_solve_reconcile {persisted : Option (Trip E P)} {history : List (Origin P)}
    (hinv : ∀ trip, persisted = some trip → trip.Inv) (h : ¬ s.Adopts persisted history) :
    (s.solve (.reconcile persisted history)).layers = (s.solve (.restart history)).layers := by
  obtain ⟨hfresh, hfreshOrigins⟩ :=
    s.matcher.pushAll_spec s.deterministic.generator history .new
  have hrestart : s.solve (.restart history)
      = s.reply (s.matcher.pushAll Trip.new history) false := rfl
  cases hreconcile : Continuation.reconcile persisted history with
  | restart fresh => rw [Continuation.fresh_of_restart hreconcile]
  | resume retained fresh =>
    cases persisted with
    | none => cases hreconcile
    | some trip =>
      rw [hrestart]
      cases hsupports : s.matcher.supports retained with
      | true =>
        -- the trip is gone on with
        have hown : Trip.Reached (· = s.matcher) trip := by
          by_contra hforeign
          exact h ⟨trip, retained, fresh, rfl, hforeign, hreconcile, hsupports⟩
        obtain ⟨hstart, horigins⟩ := Continuation.start_spec s.deterministic
          (fun trip' heq => Option.some.inj heq ▸ hown) history
        rw [hreconcile] at hstart horigins
        obtain ⟨hgrown, hgrownOrigins⟩ :=
          s.matcher.pushAll_spec s.deterministic.generator fresh hstart
        rw [s.solve_supported hsupports]
        exact s.layers_reply_congr hgrown hfresh
          (hgrownOrigins.trans (horigins.trans hfreshOrigins.symm)) _ _
      | false =>
        -- the trip is turned down, and its observations are pushed again
        rw [s.solve_unsupported hsupports,
          (Continuation.retained_of_resume (hinv trip rfl) hreconcile).append_eq]
        exact s.layers_reply_congr hfresh hfresh rfl _ _

end Resume

end Matching

/-! ### Lanes at a matcher -/

/-- The history that a matcher is asked for. -/
def Settings.contextOrigins [Geometry P] (c : Settings) (lane : List (RawEvent P))
    (payload : Payload P) : List (Origin P) :=
  (c.contextHistory lane payload).map fun event => ⟨event.point, event.timestamp.timestampMicros⟩

section Lanes

variable [DecidableEq E] [Inhabited E] [Geometry P] [Inhabited P] [DecidableEq P] {S : Type}

/-- A solve is the reply of the matcher of the event's shard to the context that was asked for,
under the revision of the event. -/
def Served (services : S → Matching E P M R) (shardOf : P → S) (s s' : Pipeline E P) : Prop :=
  ∀ d context solve, s.stage = .solving d context → s'.stage = .publishing d solve false →
    ∃ diff, (services (shardOf d.payload.point)).solve context.continuation
        = .solved diff solve.trip ∧
      solve.event = ⟨d.payload.vehicleId, { diff with revision := d.revision }⟩

/-- Runs of a lane whose solves are those of the shards' matchers. -/
abbrev ServedRuns (services : S → Matching E P M R) (shardOf : P → S) (c : Settings)
    (allowed : Payload P → Prop) : Pipeline E P → Pipeline E P → Prop :=
  Relation.ReflTransGen fun s s' => Step c allowed s s' ∧ Served services shardOf s s'

theorem ServedRuns.runs {services : S → Matching E P M R} {shardOf : P → S} {c : Settings}
    {allowed : Payload P → Prop} {s s' : Pipeline E P}
    (h : ServedRuns services shardOf c allowed s s') : Runs c allowed s s' := by
  induction h with
  | refl => exact .refl
  | tail _ hstep ih => exact ih.tail hstep.1

/-- A trip that the matchers of the shards have led to. -/
def OfFleet (services : S → Matching E P M R) (previous : Option (Trip E P)) : Prop :=
  ∀ trip, previous = some trip → Trip.Reached (fun m => ∃ shard, m = (services shard).matcher) trip

/-- A lane is of earlier events than the payload, in order, that have been archived. -/
structure Recent (archived : List (StoredEvent P)) (payload : Payload P)
    (lane : List (RawEvent P)) : Prop where
  inOrder : InOrder lane
  before : ∀ event ∈ lane, event.timestamp < payload.timestamp
  archived : ∀ event ∈ lane, ∃ stored ∈ archived, stored.load = some event

/-- An emission takes the place of an event in the stream, and is what the matcher of the event's
shard emits for the history of the event alone, unless it has gone on with a trip of another
shard. -/
def Whole (services : S → Matching E P M R) (shardOf : P → S) (c : Settings)
    (archived : List (StoredEvent P)) (d : Dispatch P) (event : MatchedEvent E P) : Prop :=
  event.vehicleId = d.payload.vehicleId ∧ event.diff.revision = d.revision ∧
  ∃ lane previous, Recent archived d.payload lane ∧ OfFleet services previous ∧
    let service := services (shardOf d.payload.point)
    let history := c.contextOrigins lane d.payload
    (service.solve (.reconcile previous history)).layers = some event.diff.layers ∧
      (service.Adopts previous history ∨
        (service.solve (.restart history)).layers = some event.diff.layers)

omit [Geometry P] [Inhabited P] [DecidableEq P] in
theorem Recent.mono {archived archived' : List (StoredEvent P)} (hsubset : archived ⊆ archived')
    {payload : Payload P} {lane : List (RawEvent P)} (h : Recent archived payload lane) :
    Recent archived' payload lane where
  inOrder := h.inOrder
  before := h.before
  archived := fun event hevent => by
    obtain ⟨stored, hstored, hload⟩ := h.archived event hevent
    exact ⟨stored, hsubset hstored, hload⟩

theorem Whole.mono {services : S → Matching E P M R} {shardOf : P → S} {c : Settings}
    {archived archived' : List (StoredEvent P)} (hsubset : archived ⊆ archived') {d : Dispatch P}
    {event : MatchedEvent E P} (h : Whole services shardOf c archived d event) :
    Whole services shardOf c archived' d event := by
  obtain ⟨hvehicle, hrevision, lane, previous, hrecent, hlayers⟩ := h
  exact ⟨hvehicle, hrevision, lane, previous, hrecent.mono hsubset, hlayers⟩

namespace Pipeline

/-- Trips are of the fleet, lanes are of archived events, and a context is of such a lane and of
such a trip; what is about to be emitted is what the history alone gives. -/
structure Stateless (services : S → Matching E P M R) (shardOf : P → S) (c : Settings)
    (allowed : Payload P → Prop) (s : Pipeline E P) : Prop where
  delivered : ∀ d, s.stage.dispatch = some d → allowed d.payload
  lane : ∀ lane, s.histories = some lane →
    ∀ event ∈ lane, ∃ stored ∈ s.archived, stored.load = some event
  trips : OfFleet services s.trips
  solving : ∀ d context, s.stage = .solving d context →
    ∃ previous lane, OfFleet services previous ∧ Recent s.archived d.payload lane ∧
      context = c.createContext previous lane d.payload
  publishing : ∀ d solve stored, s.stage = .publishing d solve stored →
    OfFleet services (some solve.trip) ∧ Whole services shardOf c s.archived d solve.event

section Steps

variable {services : S → Matching E P M R} {shardOf : P → S} {c : Settings}
  {allowed : Payload P → Prop} {s s' : Pipeline E P}

theorem stateless_new : (new : Pipeline E P).Stateless services shardOf c allowed where
  delivered := by simp [new, Stage.dispatch]
  lane := by simp [new]
  trips := by simp [new, OfFleet]
  solving := by simp [new]
  publishing := by simp [new]

/-- Nothing comes of a stage that neither asks a matcher nor has its reply. -/
theorem Stateless.stay (hs : s.Stateless services shardOf c allowed) (stage : Stage E P)
    (hdispatch : ∀ d, stage.dispatch = some d → allowed d.payload)
    (hsolving : ∀ d context, stage ≠ .solving d context)
    (hpublishing : ∀ d solve stored, stage ≠ .publishing d solve stored) :
    ({ s with stage := stage } : Pipeline E P).Stateless services shardOf c allowed :=
  { hs with
    delivered := hdispatch
    solving := fun d context heq => absurd heq (hsolving d context)
    publishing := fun d solve stored heq => absurd heq (hpublishing d solve stored) }

/-- **Behind the gate a matcher is asked for a lane of earlier events**, with a trip of its own. -/
theorem Stateless.gate (hs : s.Stateless services shardOf c allowed) {lane : List (RawEvent P)}
    (hlane : s.histories = some lane) (horder : InOrder lane) {d : Dispatch P}
    (hd : allowed d.payload) : (s.gate c lane d).Stateless services shardOf c allowed := by
  have hdispatch : ∀ d' : Dispatch P, some d = some d' → allowed d'.payload := by
    intro d' heq
    cases heq
    exact hd
  obtain ⟨-, -, -, heq⟩ | ⟨hlater, heq⟩ := gate_cases c s lane d
  · rw [heq]
    exact { hs.stay (.finished d (.dropped "stale_or_duplicate")) hdispatch
      (by simp) (by simp) with }
  · rw [heq]
    refine { hs with delivered := hdispatch, solving := fun d' context hsolving => ?_
                     publishing := by simp }
    cases hsolving
    refine ⟨s.trips, lane, hs.trips, ⟨horder, fun event hevent => ?_, hs.lane lane hlane⟩, rfl⟩
    obtain ⟨last, hlast⟩ := Option.isSome_iff_exists.mp
      (List.getLast?_isSome.mpr (List.ne_nil_of_mem hevent))
    exact (horder.le_last hlast hevent).trans_lt (hlater last hlast)

/-- What is archived besides changes nothing. -/
theorem Stateless.append (hs : s.Stateless services shardOf c allowed) (stored : StoredEvent P) :
    ({ s with archived := s.archived ++ [stored] } : Pipeline E P).Stateless services shardOf c
      allowed := by
  have hsubset : s.archived ⊆ s.archived ++ [stored] := List.subset_append_left _ _
  refine { hs with
    lane := fun lane hlane event hevent => ?_
    solving := fun d context hsolving => ?_
    publishing := fun d solve published hpublishing => ?_ }
  · obtain ⟨before, hbefore, hload⟩ := hs.lane lane hlane event hevent
    exact ⟨before, hsubset hbefore, hload⟩
  · obtain ⟨previous, lane, hprevious, hrecent, hcontext⟩ := hs.solving d context hsolving
    exact ⟨previous, lane, hprevious, hrecent.mono hsubset, hcontext⟩
  · obtain ⟨hreached, hwhole⟩ := hs.publishing d solve published hpublishing
    exact ⟨hreached, hwhole.mono hsubset⟩

/-- **The reply to a context is that to its history alone**, but for a trip that is adopted. -/
theorem Stateless.solved (hs : s.Stateless services shardOf c allowed) {d : Dispatch P}
    {context : MatchContext E P} (hstage : s.stage = .solving d context) {diff : MatchedDiff E P}
    {trip : Trip E P}
    (hreply : (services (shardOf d.payload.point)).solve context.continuation
      = .solved diff trip) :
    OfFleet services (some trip) ∧
      Whole services shardOf c s.archived d
        ⟨d.payload.vehicleId, { diff with revision := d.revision }⟩ := by
  obtain ⟨previous, lane, hprevious, hrecent, rfl⟩ := hs.solving d context hstage
  let service := services (shardOf d.payload.point)
  let history := c.contextOrigins lane d.payload
  have hreply' : service.solve (.reconcile previous history) = .solved diff trip := hreply
  have hlayers : (service.solve (.reconcile previous history)).layers = some diff.layers :=
    congrArg MatchReply.layers hreply'
  constructor
  · intro left heq
    cases heq
    exact service.reached_solve ⟨_, rfl⟩ hprevious hreply'
  · refine ⟨rfl, rfl, lane, previous, hrecent, hprevious, hlayers, ?_⟩
    by_cases hadopts : service.Adopts previous history
    · exact Or.inl hadopts
    · have hsame := service.layers_solve_reconcile
        (fun trip htrip => (hprevious trip htrip).inv) hadopts
      exact Or.inr (hsame ▸ hlayers)

theorem Stateless.step (hallowed : ∀ payload, allowed payload → payload.timestamp.WholeMicros)
    (hs : s.Stateless services shardOf c allowed) (hordered : s.Ordered) (hwriting : s.Writing)
    (h : Step c allowed s s') (hserved : Served services shardOf s s') :
    s'.Stateless services shardOf c allowed := by
  cases h with
  | deliver d hstage hd =>
    refine hs.stay _ (fun d' hd' => ?_) (by simp) (by simp)
    cases hd'
    exact hd
  | warm d lane hstage hlane hwarmed =>
    obtain ⟨horder, hof, -⟩ := warmed_spec hwarmed
    have hwarm : ({ s with histories := some lane } : Pipeline E P).Stateless services
        shardOf c allowed := by
      refine { hs with lane := fun lane' hlane' event hevent => ?_ }
      cases hlane'
      obtain ⟨stored, hstored, hload⟩ := hof event hevent
      exact ⟨stored, hwriting.archive_subset hstored, hload⟩
    exact hwarm.gate rfl horder (hs.delivered d (by rw [hstage]; rfl))
  | gate d lane hstage hlane =>
    exact hs.gate hlane (hordered.inOrder lane hlane) (hs.delivered d (by rw [hstage]; rfl))
  | noMatch d context hstage =>
    exact hs.stay _ (fun d' hd' => hs.delivered d' (by rw [hstage]; exact hd')) (by simp) (by simp)
  | solved d context diff trip hstage =>
    obtain ⟨diff', hreply, hevent⟩ := hserved d context _ hstage rfl
    refine { hs with
      delivered := fun d' hd' => hs.delivered d' (by rw [hstage]; exact hd')
      solving := by simp
      publishing := fun d' solve stored hpublishing => ?_ }
    obtain ⟨rfl, rfl, -⟩ := Stage.publishing.inj hpublishing
    obtain ⟨hreached, hwhole⟩ := hs.solved hstage hreply
    exact ⟨hreached, hevent ▸ hwhole⟩
  | publish d solve hstage =>
    have hpublishing := hs.publishing d solve false hstage
    refine { hs with
      delivered := fun d' hd' => hs.delivered d' (by rw [hstage]; exact hd')
      solving := by simp
      publishing := fun d' solve' stored heq => ?_ }
    obtain ⟨rfl, rfl, -⟩ := Stage.publishing.inj heq
    exact hpublishing
  | commit d solve hstage =>
    exact { hs with
      delivered := fun d' hd' => hs.delivered d' (by rw [hstage]; exact hd')
      trips := (hs.publishing d solve true hstage).1
      solving := by simp
      publishing := by simp }
  | send d hstage =>
    exact { hs.stay (.waiting d s.sends)
      (fun d' hd' => hs.delivered d' (by rw [hstage]; exact hd')) (by simp) (by simp) with }
  | collect n hbatch hn => exact { hs with }
  | append entry kept hentry hmin hle => exact { hs.append entry.1.store with }
  | retry => exact { hs with }
  | flush hwritten =>
    obtain heq | ⟨d, ticket, hwaiting, -, heq⟩ :=
      s.stage.report_cases ((s.queue.take s.batch).map Prod.snd)
    · rw [heq]
      exact { hs with }
    · rw [heq]
      exact { hs.stay (.flushed d)
        (fun d' hd' => hs.delivered d' (by rw [hwaiting]; exact hd')) (by simp) (by simp) with }
  | enter d hstage =>
    have hd := hs.delivered d (by rw [hstage]; rfl)
    refine { hs.stay (.finished d .done)
      (fun d' hd' => hs.delivered d' (by rw [hstage]; exact hd')) (by simp) (by simp) with
      lane := fun lane hlane event hevent => ?_ }
    obtain ⟨before, hbefore, rfl⟩ := Option.map_eq_some_iff.mp hlane
    obtain hevent | hevent := List.mem_append.mp ((entered_suffix before _).subset hevent)
    · exact hs.lane before hbefore event hevent
    · -- the event is archived before it enters
      rw [List.mem_singleton.mp hevent]
      exact ⟨_, hwriting.archive_subset (List.mem_of_getLast? (hwriting.flushed d hstage).2),
        RawEvent.load_store (hallowed d.payload hd)⟩
  | ack d outcome hstage =>
    exact { hs.stay .idle (by simp [Stage.dispatch]) (by simp) (by simp) with }
  | ackLost d outcome hstage =>
    exact hs.stay _ (by simp [Stage.dispatch]) (by simp) (by simp)
  | fail d hstage =>
    refine hs.stay _ (fun d' hd' => hs.delivered d' ?_) (by simp) (by simp)
    cases hd'
    exact Stage.dispatch_of_admitted hstage
  | evictLane => exact { hs with lane := by simp }
  | evictTrip => exact { hs with trips := by simp [OfFleet] }
  | restart =>
    exact { hs.stay .idle (by simp [Stage.dispatch]) (by simp) (by simp) with
      lane := by simp, trips := by simp [OfFleet] }

omit [DecidableEq E] [Inhabited E] [Inhabited P] in
/-- What has been published stays so, and comes of the event that the worker was at. -/
theorem Step.published_cases (h : Step c allowed s s') : s'.published = s.published ∨
    ∃ d solve, s.stage = .publishing d solve false ∧ s'.published = s.published ++ [solve] := by
  cases h with
  | warm d lane => exact Or.inl (by unfold Pipeline.gate; split <;> rfl)
  | gate d lane => exact Or.inl (by unfold Pipeline.gate; split <;> rfl)
  | publish d solve hstage => exact Or.inr ⟨d, solve, hstage, rfl⟩
  | _ => exact Or.inl rfl

omit [DecidableEq E] [Inhabited E] [Inhabited P] in
/-- What has been archived stays so. -/
theorem Step.archived_subset (h : Step c allowed s s') : s.archived ⊆ s'.archived := by
  cases h with
  | warm d lane => unfold Pipeline.gate; split <;> exact List.Subset.refl _
  | gate d lane => unfold Pipeline.gate; split <;> exact List.Subset.refl _
  | append entry kept => exact List.subset_append_left _ _
  | _ => exact List.Subset.refl _

end Steps

end Pipeline

section Runs

variable {services : S → Matching E P M R} {shardOf : P → S} {c : Settings}
  {allowed : Payload P → Prop} {s : Pipeline E P}

theorem ServedRuns.stateless (hhistory : 1 ≤ c.history)
    (hallowed : ∀ payload, allowed payload → payload.timestamp.WholeMicros)
    (h : ServedRuns services shardOf c allowed .new s) :
    s.Stateless services shardOf c allowed := by
  induction h with
  | refl => exact Pipeline.stateless_new
  | tail hrun hstep ih =>
    exact ih.step hallowed (Runs.ordered (ServedRuns.runs hrun))
      (Runs.writing hhistory (ServedRuns.runs hrun)) hstep.1 hstep.2

theorem ServedRuns.archived_subset {before : Pipeline E P}
    (h : ServedRuns services shardOf c allowed before s) : before.archived ⊆ s.archived := by
  induction h with
  | refl => exact List.Subset.refl _
  | tail _ hstep ih => exact List.Subset.trans ih (Pipeline.Step.archived_subset hstep.1)

/-- What is published has been about to be, earlier in the run. -/
theorem ServedRuns.exists_publishing (h : ServedRuns services shardOf c allowed .new s)
    {solve : Solve E P} (hsolve : solve ∈ s.published) :
    ∃ before d, ServedRuns services shardOf c allowed .new before ∧
      before.stage = .publishing d solve false ∧
      ServedRuns services shardOf c allowed before s := by
  induction h with
  | refl => simp [Pipeline.new] at hsolve
  | @tail s s' hrun hstep ih =>
    have hbefore (hsolve : solve ∈ s.published) :
        ∃ before d, ServedRuns services shardOf c allowed .new before ∧
          before.stage = .publishing d solve false ∧
          ServedRuns services shardOf c allowed before s' := by
      obtain ⟨before, d, hreached, hstage, hafter⟩ := ih hsolve
      exact ⟨before, d, hreached, hstage, hafter.tail hstep⟩
    obtain heq | ⟨d, published, hstage, heq⟩ := Pipeline.Step.published_cases hstep.1
    · exact hbefore (heq ▸ hsolve)
    · obtain hsolve | hsolve := List.mem_append.mp (heq ▸ hsolve)
      · exact hbefore hsolve
      · cases List.mem_singleton.mp hsolve
        exact ⟨s, d, hrun, hstage, .single hstep⟩

/-- **Every emission is that of its history**: whatever fails, is evicted or restarts, and whatever
trip is resumed, what is published has been published for an event that the worker was at, under
its revision, and has the layers that the matcher of the event's shard emits for the event behind
archived events that are earlier, with no trip at all; unless the trip comes from another shard, and
the matcher misses no node of it. -/
theorem emissions_stateless (hhistory : 1 ≤ c.history)
    (hallowed : ∀ payload, allowed payload → payload.timestamp.WholeMicros)
    (h : ServedRuns services shardOf c allowed .new s) :
    ∀ solve ∈ s.published, ∃ before d, ServedRuns services shardOf c allowed .new before ∧
      before.stage.dispatch = some d ∧ ServedRuns services shardOf c allowed before s ∧
      allowed d.payload ∧ Whole services shardOf c s.archived d solve.event := by
  intro solve hsolve
  obtain ⟨before, d, hbefore, hstage, hafter⟩ := ServedRuns.exists_publishing h hsolve
  have hstateless := ServedRuns.stateless hhistory hallowed hbefore
  have hdispatch : before.stage.dispatch = some d := by rw [hstage]; rfl
  exact ⟨before, d, hbefore, hdispatch, hafter, hstateless.delivered d hdispatch,
    (hstateless.publishing d solve false hstage).2.mono (ServedRuns.archived_subset hafter)⟩

end Runs

/-! ### Runs that are served -/

section Serve

variable {services : S → Matching E P M R} {shardOf : P → S} {c : Settings}
  {allowed : Payload P → Prop} {s s' : Pipeline E P}

omit [DecidableEq E] [Inhabited E] [Inhabited P] in
/-- Solves are counted. -/
theorem Step.solves_le (h : Step c allowed s s') : s.solves ≤ s'.solves := by
  cases h with
  | warm d lane => unfold Pipeline.gate; split <;> exact le_rfl
  | gate d lane => unfold Pipeline.gate; split <;> exact le_rfl
  | solved d context diff trip => exact Nat.le_succ _
  | _ => exact le_rfl

omit [DecidableEq E] [Inhabited E] [Inhabited P] in
theorem Runs.solves_le (h : Runs c allowed s s') : s.solves ≤ s'.solves := by
  induction h with
  | refl => exact le_rfl
  | tail _ hstep ih => exact ih.trans (Step.solves_le hstep)

/-- A run without a solve is served. -/
theorem ServedRuns.of_solves_eq (h : Runs c allowed s s') (hsolves : s'.solves = s.solves) :
    ServedRuns services shardOf c allowed s s' := by
  induction h with
  | refl => exact .refl
  | @tail before after hrun hstep ih =>
    have hbefore := Runs.solves_le hrun
    have hafter := Step.solves_le hstep
    refine (ih (by omega)).tail ⟨hstep, fun d context solve hsolving hpublishing => ?_⟩
    -- a reply would have been counted
    cases hstep with
    | solved d' context' diff trip hstage =>
      dsimp only at hsolves
      omega
    | warm d' lane hstage | gate d' lane hstage | publish d' solve' hstage =>
      cases hsolving.symm.trans hstage
    | commit d' solve' hstage => cases hpublishing
    | flush hwritten =>
      obtain heq | ⟨d', ticket, hwaiting, -, heq⟩ := before.stage.report_cases
        ((before.queue.take before.batch).map Prod.snd)
      · cases hsolving.symm.trans (heq.symm.trans hpublishing)
      · cases hsolving.symm.trans hwaiting
    | collect | append | retry | evictLane | evictTrip =>
      cases hsolving.symm.trans hpublishing
    | _ => cases hpublishing

variable (services shardOf c allowed) in
/-- An event that gets past the lane read back, and that the matcher of its shard solves, is emitted
and done, with nothing else going on. -/
theorem exists_emitted (hstage : s.stage = .idle) (hqueue : s.queue = []) (hbatch : s.batch = 0)
    {d : Dispatch P} (hallowed : allowed d.payload) {lane : List (RawEvent P)}
    (hwarmed : c.warmed s.archive = some lane)
    (hlater : ∀ last, lane.getLast? = some last → last.timestamp < d.payload.timestamp)
    {diff : MatchedDiff E P} {trip : Trip E P}
    (hreply : (services (shardOf d.payload.point)).solve
      (c.createContext s.trips lane d.payload).continuation = .solved diff trip) :
    ∃ s' : Pipeline E P, ServedRuns services shardOf c allowed s s' ∧ s'.stage = .idle ∧
      s'.queue = [] ∧ s'.batch = 0 ∧ s'.trips = some trip ∧
      s'.published.length = s.published.length + 1 ∧
      s'.archive = (s.archive ++ [d.payload.asEvent.store]).drop
        (s.archive.length + 1 - min c.history (s.archive.length + 1)) := by
  let started : Pipeline E P := { s with histories := none, stage := .started d }
  let asked : Pipeline E P := { started with
    stage := .solving d (c.createContext s.trips lane d.payload)
    histories := some lane }
  let solve : Solve E P :=
    ⟨s.solves, ⟨d.payload.vehicleId, { diff with revision := d.revision }⟩, trip⟩
  let replied : Pipeline E P := { asked with
    stage := .publishing d solve false
    solves := s.solves + 1 }
  let stored : Pipeline E P := { replied with
    stage := .publishing d solve true
    published := s.published ++ [solve] }
  let archiving : Pipeline E P := { stored with
    stage := .archiving d
    trips := some trip
    committed := s.committed ++ [solve] }
  have hevicted : Step c allowed s { s with histories := none } := Step.evictLane
  have hstarted : Step c allowed { s with histories := none } started :=
    Step.deliver d hstage hallowed
  have hasked : Step c allowed started asked := Step.pass allowed rfl rfl hwarmed hlater
  have hreplied : Step c allowed asked replied := Step.solved d _ diff trip rfl
  have hserved : Served services shardOf asked replied := by
    intro d' context solve' hsolving hpublishing
    cases hsolving
    cases hpublishing
    exact ⟨diff, hreply, rfl⟩
  have hpublished : Step c allowed replied stored := Step.publish d solve rfl
  have hcommitted : Step c allowed stored archiving := Step.commit d solve rfl
  have hflushed := runs_flushed c allowed (s := archiving) (d := d) rfl hqueue hbatch
  have hdone := (hflushed.tail (Step.enter d rfl)).tail (Step.ack d .done rfl)
  have hbefore : ServedRuns services shardOf c allowed s asked :=
    .of_solves_eq (((Relation.ReflTransGen.single hevicted).tail hstarted).tail hasked) rfl
  have hafter : ServedRuns services shardOf c allowed replied _ :=
    .of_solves_eq (((Relation.ReflTransGen.single hpublished).tail hcommitted).trans hdone) rfl
  exact ⟨_, (hbefore.tail ⟨hreplied, hserved⟩).trans hafter, rfl, rfl, rfl, rfl,
    List.length_append, rfl⟩

end Serve

end Lanes

/-! ### Two observations on a road -/

/-- What is replied to the first observation of a vehicle. -/
def firstReply : MatchReply ℕ Milestone :=
  roadService.solve (defaultSettings.createContext none [] wholeMicrosecond).continuation

/-- The trip that is left of it. -/
def firstLeft : Trip ℕ Milestone :=
  match firstReply with
  | .solved _ trip => trip
  | .noMatch => Trip.new

theorem exists_firstReply : ∃ diff, firstReply = .solved diff firstLeft := by
  have hsolved : firstReply.layers.isSome := by decide +kernel
  obtain ⟨diff, trip, hreply⟩ := MatchReply.exists_solved hsolved
  refine ⟨diff, hreply.trans ?_⟩
  rw [firstLeft, hreply]

/-- The history that a matcher is asked for with the second observation. -/
def secondHistory : List (Origin Milestone) :=
  defaultSettings.contextOrigins [wholeMicrosecond.asEvent] secondLater

theorem firstLeft_resumed : ∃ retained fresh,
    Continuation.reconcile (some firstLeft) secondHistory = .resume retained fresh := by
  have hoverlap : Continuation.overlap firstLeft.origins secondHistory = 1 := by decide +kernel
  obtain ⟨hrestart, -⟩ | ⟨-, hresume⟩ := Continuation.reconcile_cases firstLeft secondHistory
  · cases hoverlap.symm.trans hrestart
  · exact ⟨_, _, hresume⟩

/-- Two observations of a vehicle on the road are emitted, the second one with the trip resumed that
the first has left. -/
theorem emissions_stateless_road :
    (∃ retained fresh,
      Continuation.reconcile (some firstLeft) secondHistory = .resume retained fresh) ∧
    ∃ s : Pipeline ℕ Milestone, s.published.length = 2 ∧ ∀ solve ∈ s.published,
      ∃ d : Dispatch Milestone, Whole (fun _ : Unit => roadService) (fun _ => ()) defaultSettings
        s.archived d solve.event := by
  refine ⟨firstLeft_resumed, ?_⟩
  have hwhole : wholeMicrosecond.timestamp.WholeMicros := ⟨1775000000000500, by decide +kernel⟩
  have hlater : secondLater.timestamp.WholeMicros := ⟨1775000001000500, by decide +kernel⟩
  obtain ⟨first, hfirst⟩ := exists_firstReply
  obtain ⟨s, hrun, hstage, hqueue, hbatch, htrip, hlength, harchive⟩ := exists_emitted
    (fun _ : Unit => roadService) (fun _ => ()) defaultSettings (fun p => p.timestamp.WholeMicros)
    (s := .new) (d := ⟨wholeMicrosecond, 0⟩) rfl rfl rfl hwhole (warmed_nil _) (by simp) hfirst
  -- the lane is read back from the archive, and the trip is the one that was left
  have hwarmed : defaultSettings.warmed s.archive = some [wholeMicrosecond.asEvent] := by
    rw [harchive]
    exact warmed_singleton (by decide) (RawEvent.load_store hwhole)
  have hsolved : (roadService.solve (.reconcile (some firstLeft) secondHistory)).layers.isSome := by
    decide +kernel
  obtain ⟨second, left, hsecond⟩ := MatchReply.exists_solved hsolved
  have hreply : roadService.solve (defaultSettings.createContext s.trips
      [wholeMicrosecond.asEvent] secondLater).continuation = .solved second left := by
    rw [htrip]
    exact hsecond
  obtain ⟨s', hrun', -, -, -, -, hlength', -⟩ := exists_emitted
    (fun _ : Unit => roadService) (fun _ => ()) defaultSettings (fun p => p.timestamp.WholeMicros)
    (d := ⟨secondLater, 1⟩) hstage hqueue hbatch hlater hwarmed
    (fun last hlast => by cases hlast; decide +kernel) hreply
  refine ⟨s', by rw [hlength', hlength]; rfl, fun solve hsolve => ?_⟩
  obtain ⟨-, d, -, -, -, -, hemission⟩ :=
    emissions_stateless (by decide) (fun _ h => h) (hrun.trans hrun') solve hsolve
  exact ⟨d, hemission⟩

end Routers
