import Routers.Trellis.Window

/-!
# Sequences of calls on trellises

A caller makes trellises, edits them and cuts ranges of layers out of them, in any order and with
any arguments.  Each call checks everything before it writes, so a refused call writes nothing, and
whatever was called before, the three vectors of every trellis the caller holds fit together.

## Main definitions

* `Trellis.Edit`, `Trellis.Call` — the calls on one trellis, and on those a caller holds.
* `Trellis.runAll` — the trellises held after a sequence of calls.
* `Trellis.IsRange` — a trellis is a range of the layers of another.

## Main results

* `Trellis.Edit.run_of_error`, `Trellis.Call.run_of_error` — a refused call writes nothing.
* `Trellis.partition_isRange` — what is cut out, and `isOk_partition_iff`, when it is.
* `Trellis.calls_representation` — **after any calls every trellis is valid, a refused call
  changes none, and a cut keeps exactly its range.**

## References

`src/libs/routers_trellis/src/trellis.rs`.
-/

namespace Routers

namespace Trellis

/-! ### Calls on one trellis -/

/-- A call that edits the trellis it is made on. -/
inductive Edit
  | addLayer (width : ℕ)
  | setEdge (layer src dst weight : ℕ)
  | fillTransition (layer : ℕ) (rows : List ℕ)
  | fillNodes (layer : ℕ) (weights : List ℕ)
  | markPending (layer : ℕ)
  deriving Repr

/-- Whether an edit was accepted, and the trellis it leaves behind. -/
def Edit.run (t : Trellis) : Edit → Except TrellisError Unit × Trellis
  | .addLayer width => ((t.addLayer width).1.map fun _ => (), (t.addLayer width).2)
  | .setEdge layer src dst weight => t.setEdge layer src dst weight
  | .fillTransition layer rows => t.fillTransition layer rows
  | .fillNodes layer weights => t.fillNodes layer weights
  | .markPending layer => t.markPending layer

section Edit

variable {t : Trellis}

theorem Edit.run_valid (hv : t.Valid) {edit : Edit} (h : (edit.run t).1 = .ok ()) :
    (edit.run t).2.Valid := by
  cases edit with
  | addLayer width =>
    cases hid : (t.addLayer width).1 with
    | error e => simp [run, hid, Except.map] at h
    | ok id => exact hv.addLayer (Prod.ext hid rfl)
  | setEdge layer src dst weight => exact hv.setEdge (Prod.ext h rfl)
  | fillTransition layer rows => exact hv.fillTransition (Prod.ext h rfl)
  | fillNodes layer weights => exact hv.fillNodes (Prod.ext h rfl)
  | markPending layer => exact hv.markPending (Prod.ext h rfl)

/-- **A refused edit leaves its trellis as it was.** -/
theorem Edit.run_of_error {edit : Edit} {e : TrellisError} (h : (edit.run t).1 = .error e) :
    (edit.run t).2 = t := by
  cases edit with
  | addLayer width =>
    simp only [run, Trellis.addLayer] at h ⊢
    split_ifs at h ⊢
    · rfl
    · cases h
  | setEdge layer src dst weight =>
    simp only [run, Trellis.setEdge] at h ⊢
    split_ifs at h ⊢ <;> rfl
  | fillTransition layer rows =>
    simp only [run, Trellis.fillTransition] at h ⊢
    split_ifs at h ⊢
    · rfl
    · rfl
    · -- the entries are all looked at before the transition is replaced
      split at h <;> first | rfl | cases h
  | fillNodes layer weights =>
    simp only [run, Trellis.fillNodes] at h ⊢
    split at h
    · rfl
    · split_ifs at h ⊢
      · rfl
      · split at h <;> first | rfl | cases h
  | markPending layer =>
    simp only [run, Trellis.markPending] at h ⊢
    split_ifs at h ⊢
    rfl

end Edit

/-! ### Ranges of layers -/

/-- `part` is the layers `start, …, stop - 1` of `t`, with the transitions between them. -/
structure IsRange (t : Trellis) (start stop : ℕ) (part : Trellis) : Prop where
  layers_eq : part.layers = stop - start
  transitions_length : part.transitions.length = stop - start - 1
  width_eq : ∀ k, start + k < stop → part.width k = t.width (start + k)
  nodeWeights_eq : ∀ k, start + k < stop → part.nodeWeights k = t.nodeWeights (start + k)
  transition_eq : ∀ k, start + k + 1 < stop → part.transitions[k]? = t.transitions[start + k]?

section Range

variable {t : Trellis}

theorem partition_isRange (hv : t.Valid) {start stop : ℕ} {part : Trellis}
    (h : t.partition start stop = .ok part) : t.IsRange start stop part := by
  obtain ⟨hlt, hle, hlayers, hrow, htr⟩ := partition_view h
  have hpart := hv.partition h
  have hlen := hpart.transitions_length
  refine ⟨hlayers, by omega, fun k hk => ?_, fun k hk => ?_, htr⟩
  · rw [← hpart.length_nodeRow, ← hv.length_nodeRow, hrow k hk]
  · rw [part.nodeWeights_eq (by omega), t.nodeWeights_eq (by omega), hrow k hk]

theorem last_isRange (hv : t.Valid) {n : ℕ} {part : Trellis} (h : t.last n = .ok part) :
    t.IsRange (t.layers - n) t.layers part :=
  partition_isRange hv (last_ok h).2.2

/-- Every range that is not empty and ends within the trellis can be cut out. -/
theorem isOk_partition_iff {start stop : ℕ} :
    (∃ part, t.partition start stop = .ok part) ↔ start < stop ∧ stop ≤ t.layers := by
  constructor
  · rintro ⟨part, h⟩
    have hok := partition_ok h
    exact ⟨hok.1, hok.2.1⟩
  · rintro ⟨hlt, hle⟩
    rw [partition, if_neg (by omega), if_neg (by omega), t.nodeRange_eq (by omega),
      t.nodeRange_eq (by omega)]
    exact ⟨_, rfl⟩

end Range

/-! ### Calls on the trellises a caller holds -/

/-- A call.  All but `new` are made on the trellis held in some place. -/
inductive Call
  | new (widths : List ℕ)
  | on (place : ℕ) (edit : Edit)
  | partition (place start stop : ℕ)
  | last (place n : ℕ)
  deriving Repr

/-- A made trellis is held after the others. -/
def keep (held : List Trellis) :
    Except TrellisError Trellis → Except TrellisError Unit × List Trellis
  | .ok t => (.ok (), held ++ [t])
  | .error e => (.error e, held)

/-- Whether a call was accepted, and the trellises held after it.  There is no call on a place that
holds no trellis; here it does nothing. -/
def Call.run (held : List Trellis) : Call → Except TrellisError Unit × List Trellis
  | .new widths => keep held (Trellis.new widths)
  | .on place edit =>
    match held[place]? with
    | some t => ((edit.run t).1, held.set place (edit.run t).2)
    | none => (.ok (), held)
  | .partition place start stop =>
    match held[place]? with
    | some t => keep held (t.partition start stop)
    | none => (.ok (), held)
  | .last place n =>
    match held[place]? with
    | some t => keep held (t.last n)
    | none => (.ok (), held)

/-- The trellises held after a sequence of calls. -/
def runAll (calls : List Call) : List Trellis :=
  calls.foldl (fun held call => (call.run held).2) []

section Calls

variable {held : List Trellis}

theorem keep_of_error {made : Except TrellisError Trellis} {e : TrellisError}
    (h : (keep held made).1 = .error e) : (keep held made).2 = held := by
  cases made with
  | ok t => cases h
  | error _ => rfl

theorem keep_valid (hheld : ∀ t ∈ held, t.Valid) {made : Except TrellisError Trellis}
    (hmade : ∀ t, made = .ok t → t.Valid) : ∀ t ∈ (keep held made).2, t.Valid := by
  cases made with
  | error e => exact hheld
  | ok new =>
    intro t ht
    rcases List.mem_append.mp ht with ht | ht
    · exact hheld t ht
    · rw [List.mem_singleton.mp ht]
      exact hmade new rfl

/-- **A refused call leaves every trellis as it was.** -/
theorem Call.run_of_error {call : Call} {e : TrellisError} (h : (call.run held).1 = .error e) :
    (call.run held).2 = held := by
  cases call with
  | new widths => exact keep_of_error h
  | on place edit =>
    simp only [run] at h ⊢
    cases ht : held[place]? with
    | none => rfl
    | some t =>
      rw [ht] at h
      simp only at h ⊢
      rw [Edit.run_of_error h]
      obtain ⟨hlt, rfl⟩ := List.getElem?_eq_some_iff.mp ht
      exact List.set_getElem_self hlt
  | partition place start stop =>
    simp only [run] at h ⊢
    cases ht : held[place]? with
    | none => rfl
    | some t =>
      rw [ht] at h
      exact keep_of_error h
  | last place n =>
    simp only [run] at h ⊢
    cases ht : held[place]? with
    | none => rfl
    | some t =>
      rw [ht] at h
      exact keep_of_error h

/-- One call leaves valid trellises valid. -/
theorem Call.run_valid (hheld : ∀ t ∈ held, t.Valid) (call : Call) :
    ∀ t ∈ (call.run held).2, t.Valid := by
  cases hres : (call.run held).1 with
  | error e =>
    rw [Call.run_of_error hres]
    exact hheld
  | ok _ =>
    cases call with
    | new widths => exact keep_valid hheld fun t ht => new_valid ht
    | on place edit =>
      simp only [run] at hres ⊢
      cases ht : held[place]? with
      | none => exact hheld
      | some t =>
        rw [ht] at hres
        intro u hu
        rcases List.mem_or_eq_of_mem_set hu with hu | rfl
        · exact hheld u hu
        · exact Edit.run_valid (hheld t (List.mem_of_getElem? ht)) hres
    | partition place start stop =>
      simp only [run]
      cases ht : held[place]? with
      | none => exact hheld
      | some t =>
        exact keep_valid hheld fun _ hpart =>
          (hheld t (List.mem_of_getElem? ht)).partition hpart
    | last place n =>
      simp only [run]
      cases ht : held[place]? with
      | none => exact hheld
      | some t =>
        exact keep_valid hheld fun _ hpart => (hheld t (List.mem_of_getElem? ht)).last hpart

theorem runAll_valid (calls : List Call) : ∀ t ∈ runAll calls, t.Valid := by
  induction calls using List.reverseRecOn with
  | nil => exact fun t ht => absurd ht List.not_mem_nil
  | append_singleton calls call ih =>
    rw [runAll, List.foldl_append]
    exact Call.run_valid ih call

end Calls

/-- **After any calls, in any order and with any arguments, every trellis is valid**; the next
call, when it is refused, changes none of them; and what `partition` and `last` cut out has exactly
the node weights and the interior transitions of its range. -/
theorem calls_representation (calls : List Call) :
    (∀ t ∈ runAll calls, t.Valid) ∧
      (∀ (call : Call) (e : TrellisError), (call.run (runAll calls)).1 = .error e →
        (call.run (runAll calls)).2 = runAll calls) ∧
      ∀ t ∈ runAll calls,
        (∀ start stop, (∃ part, t.partition start stop = .ok part) ↔
          start < stop ∧ stop ≤ t.layers) ∧
        (∀ start stop part, t.partition start stop = .ok part → t.IsRange start stop part) ∧
        ∀ n part, t.last n = .ok part → t.IsRange (t.layers - n) t.layers part := by
  have hvalid := runAll_valid calls
  refine ⟨hvalid, fun call e h => Call.run_of_error h, fun t ht => ⟨?_, ?_, ?_⟩⟩
  · exact fun start stop => isOk_partition_iff
  · exact fun start stop part h => partition_isRange (hvalid t ht) h
  · exact fun n part h => last_isRange (hvalid t ht) h

end Trellis

end Routers
