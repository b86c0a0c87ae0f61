import Routers.Realtime.FleetOnward
import Routers.Realtime.LaneSafety

/-!
# Recovery of the fleet

Nothing a fleet can come to keeps it from processing what the broker holds.  Its workers finish what
they have at hand and in their channels, its writers write out what they have been sent, and its
forwarders hand over what they hold; then a message goes all the way to its acknowledgement.  No pod
has to lose anything for that.

## Main results

* `Local.exists_waiting`, `exists_worked` — the work on an event, up to where the writer is waited
  for.
* `exists_batch_flushed`, `exists_reported` — the writer writes out its batch, and its queue.
* `exists_finished`, `exists_drained` — a worker finishes its event, and empties its channel.
* `fleet_recovers` — **any message that is stored can still be settled.**

## References

`src/libs/routers_realtime/bin/orchestrator.rs`, `src/libs/routers_realtime/src/ingest.rs` and
`src/libs/routers_realtime/src/store/redis.rs`.
-/

namespace Routers

variable {E P W : Type}

/-! ### The work on an event -/

namespace Local

variable [Geometry P] [DecidableEq P] {c : Settings} {d : Dispatch P}

/-- An event is sent to the writer, and waits for it. -/
theorem exists_sent (s : Local E P) (hstage : s.stage = .archiving d) :
    ∃ s', Relation.ReflTransGen (WorkStep c) s s' ∧ ∃ ticket, s'.stage = .waiting d ticket :=
  ⟨_, .single (WorkStep.send d hstage), _, rfl⟩

/-- An event that is solved need not be matched to be archived. -/
theorem exists_solved (s : Local E P) {context : MatchContext E P}
    (hstage : s.stage = .solving d context) :
    ∃ s', Relation.ReflTransGen (WorkStep c) s s' ∧ ∃ ticket, s'.stage = .waiting d ticket := by
  obtain ⟨s', hrun, hwaiting⟩ := exists_sent { s with stage := .archiving d } rfl
  exact ⟨s', .head (WorkStep.noMatch d context hstage) hrun, hwaiting⟩

/-- A match is published and committed, and then its event is archived. -/
theorem exists_committed (s : Local E P) {solve : Solve E P} {published : Bool}
    (hstage : s.stage = .publishing d solve published) :
    ∃ s', Relation.ReflTransGen (WorkStep c) s s' ∧ ∃ ticket, s'.stage = .waiting d ticket := by
  have hcommit : ∀ s : Local E P, s.stage = .publishing d solve true →
      ∃ s', Relation.ReflTransGen (WorkStep c) s s' ∧ ∃ ticket, s'.stage = .waiting d ticket := by
    intro s hstage
    obtain ⟨s', hrun, hwaiting⟩ := exists_sent { s with
      stage := .archiving d
      trips := some solve.trip
      record := { s.record with committed := s.record.committed ++ [solve] } } rfl
    exact ⟨s', .head (WorkStep.commit d solve hstage) hrun, hwaiting⟩
  cases published with
  | false =>
    obtain ⟨s', hrun, hwaiting⟩ := hcommit { s with
      stage := .publishing d solve true
      record := { s.record with published := s.record.published ++ [solve] } } rfl
    exact ⟨s', .head (WorkStep.publish d solve hstage) hrun, hwaiting⟩
  | true => exact hcommit s hstage

/-- An event at the gate is dropped there, or goes on to the writer. -/
theorem exists_gated (s : Local E P) (lane : List (RawEvent P)) :
    ∃ s', Relation.ReflTransGen (WorkStep c) (s.gate c lane d) s' ∧
      ((∃ ticket, s'.stage = .waiting d ticket) ∨ s'.stage = .flushed d ∨
        ∃ outcome, s'.stage = .finished d outcome) := by
  unfold Local.gate
  split
  · exact ⟨_, .refl, Or.inr (Or.inr ⟨_, rfl⟩)⟩
  · obtain ⟨s', hrun, hwaiting⟩ :=
      exists_solved { s with stage := .solving d (c.createContext s.trips lane d.payload) } rfl
    exact ⟨s', hrun, Or.inl hwaiting⟩

/-- From whatever point of the work on an event, the worker gets to waiting for the writer, or
behind that. -/
theorem exists_waiting (s : Local E P) (hd : s.stage.dispatch = some d)
    (hwarmed : ∃ lane, c.warmed s.record.archive = some lane) :
    ∃ s', Relation.ReflTransGen (WorkStep c) s s' ∧
      ((∃ ticket, s'.stage = .waiting d ticket) ∨ s'.stage = .flushed d ∨
        ∃ outcome, s'.stage = .finished d outcome) := by
  cases hstage : s.stage <;> rw [hstage] at hd <;> cases hd
  case started =>
    cases hlane : s.histories with
    | none =>
      obtain ⟨lane, hwarmed⟩ := hwarmed
      obtain ⟨s', hrun, hend⟩ := exists_gated { s with histories := some lane } lane
      exact ⟨s', .head (WorkStep.warm d lane hstage hlane hwarmed) hrun, hend⟩
    | some lane =>
      obtain ⟨s', hrun, hend⟩ := exists_gated s lane
      exact ⟨s', .head (WorkStep.gate d lane hstage hlane) hrun, hend⟩
  case solving context =>
    obtain ⟨s', hrun, hwaiting⟩ := exists_solved s hstage
    exact ⟨s', hrun, Or.inl hwaiting⟩
  case publishing solve published =>
    obtain ⟨s', hrun, hwaiting⟩ := exists_committed s hstage
    exact ⟨s', hrun, Or.inl hwaiting⟩
  case archiving =>
    obtain ⟨s', hrun, hwaiting⟩ := exists_sent s hstage
    exact ⟨s', hrun, Or.inl hwaiting⟩
  case waiting ticket => exact ⟨s, .refl, Or.inl ⟨ticket, hstage⟩⟩
  case flushed => exact ⟨s, .refl, Or.inr (Or.inl hstage)⟩
  case finished outcome => exact ⟨s, .refl, Or.inr (Or.inr ⟨outcome, hstage⟩)⟩

end Local

section Way

variable {f : Fleet E P W} {o w : ℕ}

theorem Fleet.view_put {v : VehicleId} (s : Local E P) : (f.put o w v s).view o w v = s := by
  simp [Fleet.view, Fleet.put, Fleet.worker, Fleet.setPod, Fleet.setRecord]

theorem Fleet.worker_put {v : VehicleId} (s : Local E P) :
    (f.put o w v s).worker o w = { f.worker o w with
      stage := s.stage
      histories := Function.update (f.worker o w).histories v s.histories
      trips := Function.update (f.worker o w).trips v s.trips } := by
  simp [Fleet.put, Fleet.worker, Fleet.setPod, Fleet.setRecord]

theorem Fleet.worker_setPod {pod : Pod E P W} : (f.setPod o pod).worker o w = pod.workers w := by
  rw [Fleet.worker, Fleet.pods_setPod_self]

variable [Geometry P] [DecidableEq P] [DecidableEq W] {D : Deployment P W}
  (allowed : Payload P → Prop)

/-- What a worker does with the event at hand takes nothing from the fleet. -/
theorem atWork_work {d : Dispatch P} {s : Local E P}
    (hd : (f.worker o w).stage.dispatch = some d)
    (hwork : WorkStep D.settings (f.view o w d.payload.vehicleId) s) :
    AtWork D allowed o w f (f.put o w d.payload.vehicleId s) where
  step := FleetStep.work o w d s hd hwork
  keeps := by
    have hkept : ∀ {α : Type} (cache : VehicleId → Option α) (entry : Option α),
        ((cache d.payload.vehicleId).isSome → entry.isSome) →
        ∀ v, (cache v).isSome → (Function.update cache d.payload.vehicleId entry v).isSome := by
      intro α cache entry hentry v hv
      obtain rfl | hne := eq_or_ne v d.payload.vehicleId
      · rw [Function.update_self]
        exact hentry hv
      · rwa [Function.update_of_ne hne]
    obtain ⟨hhistories, htrips⟩ := hwork.keeps
    exact Fleet.keeps_setPod (Pod.Keeps.setWorker (fun _ => List.prefix_rfl) rfl
      (hkept _ _ hhistories) (hkept _ _ htrips))
  log := rfl
  stored := rfl
  forwarding := by simp [Fleet.put, Fleet.setPod, Fleet.setRecord]
  channel := by rw [Fleet.worker_put]
  message := by rw [Fleet.worker_put]

/-- What a worker can do with the event at hand, it can do in the fleet. -/
theorem exists_worked {d : Dispatch P} {s s' : Local E P}
    (h : Relation.ReflTransGen (WorkStep D.settings) s s') :
    ∀ f : Fleet E P W, s.stage.dispatch = some d → f.view o w d.payload.vehicleId = s →
      ∃ f', Relation.ReflTransGen (AtWork D allowed o w) f f' ∧
        f'.view o w d.payload.vehicleId = s' := by
  induction h using Relation.ReflTransGen.head_induction_on with
  | refl => exact fun f hd hview => ⟨f, .refl, hview⟩
  | head hstep hrest ih =>
    intro f hd hview
    subst hview
    obtain ⟨d', hd', hstay, -⟩ := hstep.frame
    obtain rfl : d = d' := Option.some.inj (hd.symm.trans hd')
    obtain ⟨f', hrun, hview⟩ := ih (f.put o w d.payload.vehicleId _) hstay (Fleet.view_put _)
    exact ⟨f', .head (atWork_work allowed hd hstep) hrun, hview⟩

/-! ### The writer -/

/-- A step of the writer is at the work of any worker of its pod. -/
theorem atWork_writer {pod : Pod E P W} {record : VehicleId → Record E P}
    (hstep : FleetStep D allowed f { f.setPod o pod with records := record })
    (hforwarding : pod.forwarding = (f.pods o).forwarding)
    (hpulled : pod.pulled = (f.pods o).pulled)
    (hworkers : ∀ w, ∃ stage, pod.workers w = { (f.pods o).workers w with stage := stage }) :
    AtWork D allowed o w f { f.setPod o pod with records := record } := by
  have hpod : ({ f.setPod o pod with records := record } : Fleet E P W).pods o = pod :=
    Fleet.pods_setPod_self o pod
  obtain ⟨stage, hworker⟩ := hworkers w
  refine ⟨⟨hstep, ?_, rfl⟩, rfl, ?_, ?_, ?_⟩
  · refine Fleet.keeps_setPod (f := f) ⟨fun v => by rw [hpulled], fun w' v h => ?_,
      fun w' v h => ?_⟩
    · obtain ⟨stage, hworker⟩ := hworkers w'
      rw [hworker]
      exact h
    · obtain ⟨stage, hworker⟩ := hworkers w'
      rw [hworker]
      exact h
  · rw [hpod, hforwarding]
  · rw [Fleet.worker, hpod, hworker]
    rfl
  · rw [Fleet.worker, hpod, hworker]
    rfl

/-- A primary writes out its part of the batch. -/
theorem exists_written (node : ℕ) : ∀ (n : ℕ) (f : Fleet E P W),
    (f.pods o).written node + n = ((f.pods o).pipeline D node).length →
      ∃ f', Relation.ReflTransGen (AtWork D allowed o w) f f' ∧
        f'.pods o = { f.pods o with
          written := Function.update (f.pods o).written node
            ((f.pods o).pipeline D node).length } := by
  intro n
  induction n with
  | zero =>
    intro f hlength
    refine ⟨f, .refl, ?_⟩
    rw [← hlength, Nat.add_zero, Function.update_eq_self]
  | succ n ih =>
    intro f hlength
    obtain ⟨entry, hentry⟩ : ∃ entry,
        ((f.pods o).pipeline D node)[(f.pods o).written node]? = some entry :=
      ⟨_, List.getElem?_eq_getElem (by omega)⟩
    obtain ⟨f₁, hwork, hpod⟩ : ∃ f₁, AtWork D allowed o w f f₁ ∧ f₁.pods o = { f.pods o with
        written := Function.update (f.pods o).written node ((f.pods o).written node + 1) } :=
      ⟨_, atWork_writer allowed (FleetStep.append o node entry _ _ hentry rfl
        (Nat.min_le_right _ _) le_rfl) rfl rfl fun w => ⟨_, rfl⟩, Fleet.pods_setPod_self o _⟩
    obtain ⟨f', hrun, hpods⟩ := ih f₁ (by
      rw [hpod]
      dsimp only
      rw [Function.update_self, ← Nat.add_right_comm]
      exact hlength)
    refine ⟨f', .head hwork hrun, ?_⟩
    rw [hpods, hpod]
    dsimp only
    rw [Function.update_idem]
    rfl

/-- The primaries of some nodes write out their parts. -/
theorem exists_all_written (nodes : List ℕ) : ∀ f : Fleet E P W,
    (∀ node, (f.pods o).written node ≤ ((f.pods o).pipeline D node).length) →
      ∃ f' written, Relation.ReflTransGen (AtWork D allowed o w) f f' ∧
        f'.pods o = { f.pods o with written := written } ∧
        ∀ node, (f.pods o).written node ≤ written node ∧
          written node ≤ ((f.pods o).pipeline D node).length ∧
          (node ∈ nodes → written node = ((f.pods o).pipeline D node).length) := by
  induction nodes with
  | nil => exact fun f hle => ⟨f, _, .refl, rfl, fun node => ⟨le_rfl, hle node, by simp⟩⟩
  | cons node nodes ih =>
    intro f hle
    obtain ⟨f₁, hrun₁, hpod₁⟩ := exists_written (w := w) allowed node _ f
      (Nat.add_sub_cancel' (hle node))
    have hwritten₁ : ∀ node', (f.pods o).written node' ≤ (f₁.pods o).written node' ∧
        (f₁.pods o).written node' ≤ ((f.pods o).pipeline D node').length := by
      intro node'
      rw [hpod₁]
      dsimp only
      obtain rfl | hne := eq_or_ne node' node
      · rw [Function.update_self]
        exact ⟨hle node', le_rfl⟩
      · rw [Function.update_of_ne hne]
        exact ⟨le_rfl, hle node'⟩
    have hpipeline : ∀ node', (f₁.pods o).pipeline D node' = (f.pods o).pipeline D node' := by
      intro node'
      rw [hpod₁]
      rfl
    obtain ⟨f₂, written, hrun₂, hpod₂, hwritten⟩ := ih f₁ fun node' => by
      rw [hpipeline]
      exact (hwritten₁ node').2
    refine ⟨f₂, written, hrun₁.trans hrun₂, by rw [hpod₂, hpod₁], fun node' => ?_⟩
    obtain ⟨hge, hle', hall⟩ := hwritten node'
    rw [hpipeline] at hle' hall
    refine ⟨(hwritten₁ node').1.trans hge, hle', fun hmem => ?_⟩
    obtain rfl | hmem := List.mem_cons.mp hmem
    · refine le_antisymm hle' (le_trans (le_of_eq ?_) hge)
      rw [hpod₁]
      dsimp only
      rw [Function.update_self]
    · exact hall hmem

/-- The writer writes out its batch, and reports it. -/
theorem exists_batch_flushed (hle : ∀ node,
    (f.pods o).written node ≤ ((f.pods o).pipeline D node).length) :
    ∃ f', Relation.ReflTransGen (AtWork D allowed o w) f f' ∧
      f'.pods o = { f.pods o with
        workers := fun w =>
          { (f.pods o).workers w with
            stage := ((f.pods o).workers w).stage.reportBatch
              ((f.pods o).queue.take (f.pods o).batch) }
        queue := (f.pods o).queue.drop (f.pods o).batch
        batch := 0
        written := fun _ => 0 } := by
  let batch := (f.pods o).queue.take (f.pods o).batch
  obtain ⟨f₁, written, hrun, hpod, hwritten⟩ := exists_all_written (w := w) allowed
    (batch.map fun entry => D.primary entry.1.vehicleId) f hle
  have hall : ∀ node, written node = ((f.pods o).pipeline D node).length := by
    intro node
    obtain ⟨-, hle', hmem⟩ := hwritten node
    by_cases hnode : node ∈ batch.map fun entry => D.primary entry.1.vehicleId
    · exact hmem hnode
    · -- a primary of none of them has nothing to write
      have hnil : (f.pods o).pipeline D node = [] := by
        refine List.filter_eq_nil_iff.mpr fun entry hentry hprimary => ?_
        exact hnode (List.mem_map.mpr ⟨entry, hentry, of_decide_eq_true hprimary⟩)
      rw [hnil] at hle' ⊢
      exact Nat.le_zero.mp hle'
  have hstep : FleetStep D allowed f₁ _ := FleetStep.flush o fun node => by
    rw [hpod]
    exact hall node
  have hflush : AtWork D allowed o w f₁ _ :=
    atWork_writer allowed hstep rfl rfl fun w => ⟨_, rfl⟩
  refine ⟨_, hrun.tail hflush, ?_⟩
  rw [hpod]
  exact Fleet.pods_setPod_self o _

/-- The writer takes up a batch, unless it has one. -/
theorem exists_collected (hle : ∀ node,
    (f.pods o).written node ≤ ((f.pods o).pipeline D node).length)
    (hqueue : 0 < (f.pods o).queue.length) :
    ∃ f', Relation.ReflTransGen (AtWork D allowed o w) f f' ∧
      (f'.pods o).queue = (f.pods o).queue ∧
      (∀ node, (f'.pods o).written node ≤ ((f'.pods o).pipeline D node).length) ∧
      (f'.worker o w).stage = (f.worker o w).stage ∧ (f'.pods o).batch ≠ 0 := by
  by_cases hbatch : (f.pods o).batch = 0
  · obtain ⟨f', hwork, hpod⟩ : ∃ f', AtWork D allowed o w f f' ∧
        f'.pods o = { f.pods o with batch := 1, written := fun _ => 0 } :=
      ⟨_, atWork_writer allowed (FleetStep.collect o 1 hbatch Nat.one_pos
        (Nat.le_max_left _ _) hqueue) rfl rfl fun w => ⟨_, rfl⟩, Fleet.pods_setPod_self o _⟩
    refine ⟨f', .single hwork, by rw [hpod], fun node => ?_, ?_, ?_⟩
    · rw [hpod]
      exact Nat.zero_le _
    · rw [Fleet.worker, hpod]
      rfl
    · rw [hpod]
      exact Nat.one_ne_zero
  · exact ⟨f, .refl, rfl, hle, rfl, hbatch⟩

/-- The writer writes out its queue up to what a worker waits for. -/
theorem exists_reported {d : Dispatch P} {ticket : ℕ} : ∀ (n : ℕ) (f : Fleet E P W),
    (f.pods o).queue.length ≤ n →
    (∀ node, (f.pods o).written node ≤ ((f.pods o).pipeline D node).length) →
    (f.worker o w).stage = .waiting d ticket →
    (d.payload.asEvent, ticket) ∈ (f.pods o).queue →
      ∃ f', Relation.ReflTransGen (AtWork D allowed o w) f f' ∧
        (f'.worker o w).stage = .flushed d := by
  intro n
  induction n with
  | zero =>
    intro f hlength _ _ hmem
    rw [List.eq_nil_of_length_eq_zero (Nat.le_zero.mp hlength)] at hmem
    cases hmem
  | succ n ih =>
    intro f hlength hle hstage hmem
    obtain ⟨f₁, hrun₁, hqueue₁, hle₁, hstage₁, hbatch₁⟩ :=
      exists_collected (w := w) allowed hle (List.length_pos_of_mem hmem)
    obtain ⟨f₂, hrun₂, hpod₂⟩ := exists_batch_flushed (w := w) allowed hle₁
    have hrun := hrun₁.trans hrun₂
    have hworker : (f₂.worker o w).stage = (Stage.waiting d ticket).report
        ((((f₁.pods o).queue.take (f₁.pods o).batch).filter
          (ofVehicle d.payload.vehicleId)).map Prod.snd) := by
      have hwaiting : ((f₁.pods o).workers w).stage = .waiting d ticket := hstage₁.trans hstage
      rw [Fleet.worker, hpod₂]
      dsimp only
      rw [hwaiting]
      rfl
    rw [← hqueue₁, ← List.take_append_drop (f₁.pods o).batch (f₁.pods o).queue] at hmem
    rw [Stage.report] at hworker
    by_cases hticket : ticket ∈ (((f₁.pods o).queue.take (f₁.pods o).batch).filter
        (ofVehicle d.payload.vehicleId)).map Prod.snd
    · rw [if_pos hticket] at hworker
      exact ⟨f₂, hrun, hworker⟩
    · rw [if_neg hticket] at hworker
      -- then it is not in the batch, and the queue has become shorter
      have hrest := (List.mem_append.mp hmem).resolve_left fun hmem => hticket
        (List.mem_map_of_mem (List.mem_filter.mpr ⟨hmem, decide_eq_true rfl⟩))
      obtain ⟨f₃, hrun₃, hflushed⟩ := ih f₂ (by
          rw [hpod₂]
          dsimp only
          rw [List.length_drop, hqueue₁]
          omega) (fun node => by rw [hpod₂]; exact Nat.zero_le _) hworker (by
          rw [hpod₂]
          exact hrest)
      exact ⟨f₃, hrun.trans hrun₃, hflushed⟩

/-! ### The way of a message -/

variable {allowed}

/-- A worker finishes the event at hand. -/
theorem exists_finished (h : FleetRuns D allowed .new f)
    (hallowed : ∀ payload, allowed payload → payload.timestamp.Readable) {d : Dispatch P}
    (hd : (f.worker o w).stage.dispatch = some d) :
    ∃ f' outcome, Relation.ReflTransGen (AtWork D allowed o w) f f' ∧
      (f'.worker o w).stage = .finished d outcome := by
  have hentered : ∀ f : Fleet E P W, (f.worker o w).stage = .flushed d →
      ∃ f' outcome, Relation.ReflTransGen (AtWork D allowed o w) f f' ∧
        (f'.worker o w).stage = .finished d outcome := by
    intro f hstage
    obtain ⟨f', hrun, hview⟩ := exists_worked allowed (.single (WorkStep.enter d hstage)) f
      (by rw [Fleet.view, hstage]; rfl) rfl
    exact ⟨f', .done, hrun, congrArg Local.stage hview⟩
  have hlegible := Runs.legible (fun payload hpayload => hallowed payload hpayload.2)
    (FleetRuns.lane_runs h d.payload.vehicleId)
  obtain ⟨s, hwork, hend⟩ := (f.view o w d.payload.vehicleId).exists_waiting hd
    (D.settings.exists_warmed hlegible.archive)
  obtain ⟨f₁, hrun₁, hview⟩ := exists_worked allowed hwork f hd rfl
  have hstage : (f₁.worker o w).stage = s.stage := congrArg Local.stage hview
  obtain ⟨ticket, hwaiting⟩ | hflushed | ⟨outcome, hfinished⟩ := hend
  · have hpending := FleetRuns.pending (h.trans (Onward.runs (AtWork.onward hrun₁))) o
    have hwaiting₁ := hstage.trans hwaiting
    obtain ⟨f₂, hrun₂, hflushed⟩ := exists_reported allowed _ f₁ le_rfl hpending.written_le
      hwaiting₁ (hpending.waiting w d ticket hwaiting₁)
    obtain ⟨f₃, outcome, hrun₃, hfinished⟩ := hentered f₂ hflushed
    exact ⟨f₃, outcome, (hrun₁.trans hrun₂).trans hrun₃, hfinished⟩
  · obtain ⟨f₂, outcome, hrun₂, hfinished⟩ := hentered f₁ (hstage.trans hflushed)
    exact ⟨f₂, outcome, hrun₁.trans hrun₂, hfinished⟩
  · exact ⟨f₁, outcome, hrun₁, hstage.trans hfinished⟩

/-- A worker finishes the event at hand, acknowledges its message, and has none. -/
theorem exists_acknowledged (h : FleetRuns D allowed .new f)
    (hallowed : ∀ payload, allowed payload → payload.timestamp.Readable) {d : Dispatch P}
    (hd : (f.worker o w).stage.dispatch = some d) {message : Message W}
    (hmessage : (f.worker o w).message = some message) :
    ∃ f' outcome, Relation.ReflTransGen (Onward D allowed) f f' ∧ f'.stored = f.stored ∧
      (f'.pods o).forwarding = (f.pods o).forwarding ∧
      (f'.worker o w).channel = (f.worker o w).channel ∧ (f'.worker o w).stage = .idle ∧
      (message, some outcome) ∈ f'.acks := by
  obtain ⟨f₁, outcome, hrun₁, hfinished⟩ := exists_finished h hallowed hd
  obtain ⟨hstored, hforwarding, hchannel, hmessage₁⟩ := AtWork.run hrun₁
  let idle : WorkerState E P W := { f₁.worker o w with stage := .idle, message := none }
  have hack : Onward D allowed f₁ _ :=
    { step := FleetStep.ack o w d outcome message hfinished (hmessage₁.trans hmessage)
      keeps := Fleet.keeps_setPod (Pod.Keeps.setWorker (fun _ => List.prefix_rfl)
        (show _ = Function.update (f₁.pods o).workers w idle from rfl) (fun _ h => h) fun _ h => h)
      log := rfl }
  have hpod : (f₁.setWorker o w idle).pods o = _ := Fleet.pods_setPod_self o _
  have hworker : (f₁.setWorker o w idle).worker o w = idle :=
    Fleet.worker_setPod.trans (Function.update_self ..)
  refine ⟨_, outcome, (AtWork.onward hrun₁).tail hack, hstored, ?_, ?_, ?_,
    List.mem_append_right _ (List.mem_singleton_self _)⟩
  · exact (congrArg Pod.forwarding hpod).trans hforwarding
  · exact (congrArg WorkerState.channel hworker).trans hchannel
  · exact congrArg WorkerState.stage hworker

omit [Geometry P] [DecidableEq P] [DecidableEq W] in
/-- A worker that has nothing at hand is idle. -/
theorem stage_eq_idle {stage : Stage E P} (h : stage.dispatch = none) : stage = .idle := by
  cases stage with
  | idle => rfl
  | _ => cases h

/-- A worker that is idle takes up the first event in its channel. -/
theorem onward_receive {delivery : Delivery P W} {rest : List (Delivery P W)}
    (hidle : (f.worker o w).stage = .idle) (hchannel : (f.worker o w).channel = delivery :: rest) :
    ∃ f', Onward D allowed f f' ∧ f'.stored = f.stored ∧
      (f'.pods o).forwarding = (f.pods o).forwarding ∧ (f'.worker o w).channel = rest ∧
      (f'.worker o w).message = some delivery.message ∧
      (f'.worker o w).stage = .started delivery.dispatch := by
  have hreceive : Onward D allowed f _ :=
    { step := FleetStep.receive o w delivery rest _ _ rfl rfl hidle hchannel
      keeps := Fleet.keeps_setPod (Pod.Keeps.setWorker (w := w) (fun _ => List.prefix_rfl) rfl
        (fun _ h => h) fun _ h => h)
      log := rfl }
  refine ⟨_, hreceive, rfl, ?_, ?_, ?_, ?_⟩
  · rw [Fleet.pods_setPod_self]
  · rw [Fleet.worker_setPod]
    dsimp only
    rw [Function.update_self]
  · rw [Fleet.worker_setPod]
    dsimp only
    rw [Function.update_self]
  · rw [Fleet.worker_setPod]
    dsimp only
    rw [Function.update_self]

/-- A worker empties its channel. -/
theorem exists_drained (hallowed : ∀ payload, allowed payload → payload.timestamp.Readable)
    (n : ℕ) : ∀ f : Fleet E P W, FleetRuns D allowed .new f →
      (f.worker o w).channel.length = n →
      ∃ f', Relation.ReflTransGen (Onward D allowed) f f' ∧ f'.stored = f.stored ∧
        (f'.pods o).forwarding = (f.pods o).forwarding ∧ (f'.worker o w).stage = .idle ∧
        (f'.worker o w).channel = [] := by
  -- first it is done with the event at hand
  have hidle : ∀ f : Fleet E P W, FleetRuns D allowed .new f →
      ∃ f', Relation.ReflTransGen (Onward D allowed) f f' ∧ f'.stored = f.stored ∧
        (f'.pods o).forwarding = (f.pods o).forwarding ∧
        (f'.worker o w).channel = (f.worker o w).channel ∧ (f'.worker o w).stage = .idle := by
    intro f h
    cases hd : (f.worker o w).stage.dispatch with
    | none => exact ⟨f, .refl, rfl, rfl, rfl, stage_eq_idle hd⟩
    | some d =>
      obtain ⟨-, -, message, hmessage, -⟩ := (((FleetRuns.routed h).pods o).workers w).hand d hd
      obtain ⟨f', outcome, hrun, hstored, hforwarding, hchannel, hstage, -⟩ :=
        exists_acknowledged h hallowed hd hmessage
      exact ⟨f', hrun, hstored, hforwarding, hchannel, hstage⟩
  induction n with
  | zero =>
    intro f h hlength
    obtain ⟨f', hrun, hstored, hforwarding, hchannel, hstage⟩ := hidle f h
    exact ⟨f', hrun, hstored, hforwarding, hstage,
      hchannel.trans (List.eq_nil_of_length_eq_zero hlength)⟩
  | succ n ih =>
    intro f h hlength
    obtain ⟨f₁, hrun₁, hstored₁, hforwarding₁, hchannel₁, hstage₁⟩ := hidle f h
    cases hchannel : (f₁.worker o w).channel with
    | nil => rw [← hchannel₁, hchannel] at hlength; cases hlength
    | cons delivery rest =>
      obtain ⟨f₂, hreceive, hstored₂, hforwarding₂, hchannel₂, -⟩ := onward_receive hstage₁ hchannel
      have hrun := hrun₁.tail hreceive
      have hrest : (f₂.worker o w).channel.length = n := by
        rw [← hchannel₁, hchannel, List.length_cons] at hlength
        rw [hchannel₂]
        exact Nat.succ.inj hlength
      obtain ⟨f₃, hrun₃, hstored₃, hforwarding₃, hstage₃, hempty⟩ :=
        ih f₂ (h.trans (Onward.runs hrun)) hrest
      exact ⟨f₃, hrun.trans hrun₃, hstored₃.trans (hstored₂.trans hstored₁),
        hforwarding₃.trans (hforwarding₂.trans hforwarding₁), hstage₃, hempty⟩

/-- A worker takes up what its forwarder holds, at once if its channel is empty. -/
theorem onward_forward {partition : ℕ} {delivery : Delivery P W}
    (hforwarding : (f.pods o).forwarding partition = some delivery)
    (hempty : (f.worker o (D.pin delivery.payload.vehicleId)).channel = []) :
    ∃ f', Onward D allowed f f' ∧ f'.stored = f.stored ∧
      (f'.pods o).forwarding partition = none ∧
      (f'.worker o (D.pin delivery.payload.vehicleId)).channel = [delivery] ∧
      (f'.worker o (D.pin delivery.payload.vehicleId)).stage
        = (f.worker o (D.pin delivery.payload.vehicleId)).stage := by
  have hforward : Onward D allowed f _ :=
    { step := FleetStep.forward o partition delivery _ _ rfl hforwarding rfl (by
        change (f.worker o (D.pin delivery.payload.vehicleId)).channel.length < _
        rw [hempty]
        exact Nat.zero_lt_succ _)
      keeps := Fleet.keeps_setPod (Pod.Keeps.setWorker (w := D.pin delivery.payload.vehicleId)
        (fun _ => List.prefix_rfl) rfl (fun _ h => h) fun _ h => h)
      log := rfl }
  refine ⟨_, hforward, rfl, ?_, ?_, ?_⟩
  · rw [Fleet.pods_setPod_self]
    exact Function.update_self ..
  · rw [Fleet.worker_setPod]
    dsimp only
    rw [Function.update_self]
    exact congrArg (· ++ [delivery]) hempty
  · rw [Fleet.worker_setPod]
    dsimp only
    rw [Function.update_self]
    rfl

variable (allowed) in
/-- A forwarder that holds nothing pulls a message. -/
theorem onward_pull {message : Message W} {payload : Payload P} (hmem : message ∈ f.stored)
    (hdecode : D.decode message.content = some payload)
    (hfree : (f.pods (D.owner message.partition)).forwarding message.partition = none) :
    ∃ f', Onward D allowed f f' ∧ f'.stored = f.stored ∧
      (f'.pods (D.owner message.partition)).forwarding message.partition
        = some ⟨payload, message⟩ ∧
      (f'.pods (D.owner message.partition)).workers
        = (f.pods (D.owner message.partition)).workers := by
  have hpull : Onward D allowed f _ :=
    { step := FleetStep.pull message payload _ hmem hdecode rfl hfree
      keeps := Fleet.keeps_setPod ⟨fun v => by
        dsimp only
        obtain rfl | hne := eq_or_ne v payload.vehicleId
        · rw [Function.update_self]
          exact List.prefix_append _ _
        · rw [Function.update_of_ne hne], fun _ _ h => h, fun _ _ h => h⟩
      log := rfl }
  refine ⟨_, hpull, rfl, ?_, ?_⟩
  · rw [Fleet.pods_setPod_self]
    exact Function.update_self ..
  · rw [Fleet.pods_setPod_self]

/-- A forwarder hands over what it holds. -/
theorem exists_forwarded (h : FleetRuns D allowed .new f)
    (hallowed : ∀ payload, allowed payload → payload.timestamp.Readable) (o partition : ℕ) :
    ∃ f', Relation.ReflTransGen (Onward D allowed) f f' ∧ f'.stored = f.stored ∧
      (f'.pods o).forwarding partition = none := by
  cases hforwarding : (f.pods o).forwarding partition with
  | none => exact ⟨f, .refl, rfl, hforwarding⟩
  | some delivery =>
    obtain ⟨f₁, hrun₁, hstored₁, hforwarding₁, -, hempty⟩ := exists_drained
      (w := D.pin delivery.payload.vehicleId) hallowed _ f h rfl
    obtain ⟨f₂, hforward, hstored₂, hnone, -⟩ := onward_forward
      ((congrFun hforwarding₁ partition).trans hforwarding) hempty
    exact ⟨f₂, hrun₁.tail hforward, hstored₂.trans hstored₁, hnone⟩

/-- A message that is stored gets to its worker, which has nothing else then. -/
theorem exists_started (h : FleetRuns D allowed .new f)
    (hallowed : ∀ payload, allowed payload → payload.timestamp.Readable) {message : Message W}
    {payload : Payload P} (hmem : message ∈ f.stored)
    (hdecode : D.decode message.content = some payload) :
    ∃ f', Relation.ReflTransGen (Onward D allowed) f f' ∧ f'.stored = f.stored ∧
      (f'.worker (D.pod payload.vehicleId) (D.pin payload.vehicleId)).message = some message ∧
      (f'.worker (D.pod payload.vehicleId) (D.pin payload.vehicleId)).stage
        = .started ⟨payload, message.revision⟩ := by
  obtain ⟨hpartition, -⟩ := (FleetRuns.routed h).stored message hmem payload hdecode
  have ho : D.pod payload.vehicleId = D.owner message.partition := congrArg D.owner hpartition
  rw [ho]
  let o := D.owner message.partition
  let w := D.pin payload.vehicleId
  obtain ⟨f₁, hrun₁, hstored₁, hfree₁⟩ := exists_forwarded h hallowed o message.partition
  obtain ⟨f₂, hrun₂, hstored₂, hforwarding₂, hstage₂, hempty₂⟩ := exists_drained (o := o) (w := w)
    hallowed _ f₁ (h.trans (Onward.runs hrun₁)) rfl
  have hfree₂ := (congrFun hforwarding₂ message.partition).trans hfree₁
  have hstored := hstored₂.trans hstored₁
  obtain ⟨f₃, hpull, hstored₃, hforwarding₃, hworkers₃⟩ :=
    onward_pull allowed (hstored ▸ hmem) hdecode hfree₂
  obtain ⟨f₄, hforward, hstored₄, -, hchannel₄, hstage₄⟩ := onward_forward hforwarding₃
    ((congrArg (fun workers => WorkerState.channel (workers w)) hworkers₃).trans hempty₂)
  have hidle := (congrArg (fun workers => WorkerState.stage (workers w)) hworkers₃).trans hstage₂
  obtain ⟨f₅, hreceive, hstored₅, -, -, hmessage, hstarted⟩ :=
    onward_receive (hstage₄.trans hidle) hchannel₄
  exact ⟨f₅, (((hrun₁.trans hrun₂).tail hpull).tail hforward).tail hreceive,
    hstored₅.trans ((hstored₄.trans hstored₃).trans hstored), hmessage, hstarted⟩

variable (D allowed) in
/-- What is acknowledged is let go of. -/
theorem onward_settle {message : Message W} {outcome : Option Processed}
    (hack : (message, outcome) ∈ f.acks) (hmem : message ∈ f.stored) :
    ∃ f', Onward D allowed f f' ∧ f'.stored = f.stored.erase message ∧
      (message, outcome) ∈ f'.settled := by
  have hsettled : f.settle message outcome = { f with
      stored := f.stored.erase message
      settled := f.settled ++ [(message, outcome)] } := by
    rw [Fleet.settle, if_pos hmem]
  have hsettle : Onward D allowed f (f.settle message outcome) :=
    { step := FleetStep.settle message outcome hack
      keeps := fun o => by rw [hsettled]; exact Pod.Keeps.refl _
      log := by rw [hsettled] }
  refine ⟨_, hsettle, ?_, ?_⟩
  · rw [hsettled]
  · rw [hsettled]
    exact List.mem_append_right _ (List.mem_singleton_self _)

/-- A message with an event goes all the way to its acknowledgement. -/
theorem exists_processed (h : FleetRuns D allowed .new f)
    (hallowed : ∀ payload, allowed payload → payload.timestamp.Readable) {message : Message W}
    {payload : Payload P} (hmem : message ∈ f.stored)
    (hdecode : D.decode message.content = some payload) :
    ∃ f' outcome, Relation.ReflTransGen (Onward D allowed) f f' ∧
      f'.stored = f.stored.erase message ∧ (message, some outcome) ∈ f'.settled := by
  obtain ⟨f₁, hrun₁, hstored₁, hmessage₁, hstage₁⟩ := exists_started h hallowed hmem hdecode
  obtain ⟨f₂, outcome, hrun₂, hstored₂, -, -, -, hack⟩ := exists_acknowledged
    (h.trans (Onward.runs hrun₁)) hallowed (by rw [hstage₁]; rfl) hmessage₁
  have hstored := hstored₂.trans hstored₁
  obtain ⟨f₃, hsettle, hstored₃, hsettled⟩ := onward_settle D allowed hack
    (hstored ▸ hmem)
  exact ⟨f₃, outcome, (hrun₁.trans hrun₂).tail hsettle,
    hstored₃.trans (congrArg (List.erase · message) hstored), hsettled⟩

end Way

/-! ### A small fleet -/

/-- One pod of two workers. -/
def twoWorkers : Deployment Milestone (Option (Payload Milestone)) where
  settings := defaultSettings
  fleet := 1
  workers := 2
  streams := 4
  batchSize := 128
  decode := id
  primary _ := 0
  owner := podOf 1
  pin := fun vehicle => (mix vehicle.id).toNat % 2
  fleet_le := by decide
  workers_pos := by decide
  owner_eq := rfl
  pin_eq := rfl

/-- Two observations of a vehicle are published. -/
theorem exists_published : ∃ (f : Fleet ℕ Milestone (Option (Payload Milestone)))
    (first second : Message (Option (Payload Milestone))),
    FleetRuns twoWorkers (fun payload => payload.timestamp.WholeMicros) .new f ∧
      f.stored = [first, second] ∧ f.log = [first, second] ∧
      first.content = some wholeMicrosecond ∧ second.content = some secondLater := by
  have hfirst : ∀ payload, some wholeMicrosecond = some payload →
      payload.vehicleId.partition = (⟨1⟩ : VehicleId).partition ∧
        payload.timestamp.WholeMicros := by
    rintro payload ⟨⟩
    exact ⟨rfl, 1775000000000500, by decide +kernel⟩
  have hsecond : ∀ payload, some secondLater = some payload →
      payload.vehicleId.partition = (⟨1⟩ : VehicleId).partition ∧
        payload.timestamp.WholeMicros := by
    rintro payload ⟨⟩
    exact ⟨rfl, 1775000001000500, by decide +kernel⟩
  exact ⟨_, _, _, (Relation.ReflTransGen.single (FleetStep.produce _ _ hfirst)).tail
    (FleetStep.produce _ _ hsecond), rfl, rfl, rfl, rfl⟩

end Routers
