import ElmSuite.Files.Change
import ElmSuite.Proofs.Run.Action
import ElmSuite.Run.Pipeline

/-!
# What actions leave behind

An action adds events to the history of a session. The files afterwards are those that
the writes among the events make of the files before, and the stages that it enters are
those that its log tells. It gives no reason for an abort. What several steps leave
behind is what the first one does, followed by what the others do.
-/

namespace ElmSuite

/-- Whether an event is a record of the log. -/
def RunEvent.isNote : RunEvent → Bool
  | note _ => true
  | _ => false

/-- Whether a record tells of the way from one stage to another. -/
def LogRecord.isStageNote (r : LogRecord) : Bool :=
  r.level = .info && "Pipeline stage: ".toList.isPrefixOf r.message.toList

/-- The records on the way through stages. -/
def Stage.notes : List Stage → List LogRecord
  | before :: after :: rest => Pipeline.stageNote before after :: notes (after :: rest)
  | _ => []

/-- What an event does to the world outside of a run. -/
inductive RunEffect where
  | write
  | start (role : ToolRole)
  deriving DecidableEq

namespace RunEvent

/-- The effect of an event, if it has one. -/
def effect? : RunEvent → Option RunEffect
  | wrote .. => some .write
  | start role .. => some (.start role)
  | _ => none

/-- Whether an event has none of some effects. -/
def Spares (e : RunEvent) (effects : List RunEffect) : Prop := ∀ x ∈ effects, e.effect? ≠ some x

theorem Spares.mono {e : RunEvent} {effects others : List RunEffect} (h : e.Spares effects)
    (hsubset : others ⊆ effects) : e.Spares others :=
  fun x hx => h x (hsubset hx)

/-- An event without an effect has none of any. -/
theorem spares_of_effect?_eq_none {e : RunEvent} (h : e.effect? = none) (effects : List RunEffect) :
    e.Spares effects := fun x _ => by simp [h]

theorem isStartOf_iff {role : ToolRole} {e : RunEvent} :
    e.isStartOf role = true ↔ e.effect? = some (.start role) := by
  cases e <;> simp [isStartOf, effect?]

/-- The records of stages that events add to the log. -/
def stageNotes (events : List RunEvent) : List LogRecord :=
  (events.filterMap record?).filter LogRecord.isStageNote

@[simp] theorem stageNotes_append (first second : List RunEvent) :
    stageNotes (first ++ second) = stageNotes first ++ stageNotes second := by
  simp [stageNotes]

theorem stageNotes_map_note {records : List LogRecord}
    (h : ∀ r ∈ records, r.isStageNote = false) : stageNotes (records.map .note) = [] := by
  rw [stageNotes, List.filter_eq_nil_iff]
  intro r hr
  obtain ⟨e, he, hrecord⟩ := List.mem_filterMap.mp hr
  obtain ⟨record, hmem, rfl⟩ := List.mem_map.mp he
  cases hrecord
  simp [h r hmem]

end RunEvent

namespace FileSystem

/-- The files after the writes among events. -/
def after (fs : FileSystem) (events : List RunEvent) : FileSystem :=
  events.foldl (fun fs event => match event with
    | .wrote path text => (fs.writeTextWithParents path text).toOption.getD fs
    | _ => fs) fs

theorem after_append (fs : FileSystem) (first second : List RunEvent) :
    fs.after (first ++ second) = (fs.after first).after second :=
  List.foldl_append

/-- Events that write nothing leave the files as they are. -/
theorem after_of_spares {events : List RunEvent} (fs : FileSystem)
    (h : ∀ e ∈ events, e.Spares [.write]) : fs.after events = fs := by
  induction events with
  | nil => rfl
  | cons e rest ih =>
    rw [List.forall_mem_cons] at h
    cases e with
    | wrote path text => exact absurd rfl (h.1 .write (by simp))
    | _ => exact ih h.2

end FileSystem

namespace Stage

/-- The way through more stages goes on from the last of the first ones. -/
theorem notes_append (origin : Stage) (first second : List Stage) :
    notes (origin :: (first ++ second)) =
      notes (origin :: first) ++ notes (first.getLastD origin :: second) := by
  induction first generalizing origin with
  | nil => rfl
  | cons next rest ih => rw [List.cons_append, notes, notes, ih, List.cons_append, List.getLastD_cons]

theorem getLastD_append (origin : Stage) (first second : List Stage) :
    (first ++ second).getLastD origin = second.getLastD (first.getLastD origin) := by
  induction first generalizing origin with
  | nil => rfl
  | cons next rest ih => rw [List.cons_append, List.getLastD_cons, List.getLastD_cons, ih]

end Stage

/-- What events, on the way through stages, make of a session. -/
structure Session.Adds (s after : Session) (events : List RunEvent) (passed : List Stage) :
    Prop where
  history : after.history = s.history ++ events
  files : after.files = s.files.after events
  stage : after.stage = passed.getLastD s.stage
  reason : after.abortReason = s.abortReason
  notes : RunEvent.stageNotes events = Stage.notes (s.stage :: passed)

namespace Session.Adds

variable {s t u : Session} {events more : List RunEvent} {passed others : List Stage}

theorem refl (s : Session) : s.Adds s [] [] := ⟨by simp, rfl, rfl, rfl, rfl⟩

theorem trans (h : s.Adds t events passed) (h' : t.Adds u more others) :
    s.Adds u (events ++ more) (passed ++ others) where
  history := by rw [h'.history, h.history, List.append_assoc]
  files := by rw [h'.files, h.files, FileSystem.after_append]
  stage := by rw [h'.stage, h.stage, Stage.getLastD_append]
  reason := h'.reason.trans h.reason
  notes := by
    rw [RunEvent.stageNotes_append, h.notes, h'.notes, h.stage, Stage.notes_append]

/-- Events that write nothing and tell of no stage. -/
theorem of_record (hwrites : ∀ e ∈ events, e.Spares [.write])
    (hnotes : RunEvent.stageNotes events = []) : s.Adds (s.record events) events [] :=
  ⟨rfl, (FileSystem.after_of_spares s.files hwrites).symm, rfl, rfl, hnotes⟩

end Session.Adds

namespace Action

variable {α β : Type}

/-- Whether an action enters stages in this order, all of them if it succeeds, and has none of some
effects. -/
def Passes (spared : List RunEffect) (stages : List Stage) (x : Action α) : Prop :=
  ∀ s, ∃ events passed, s.Adds (x.run s).2 events passed ∧
    (∀ e ∈ events, e.Spares spared) ∧ passed <+: stages ∧
    ∀ a, (x.run s).1 = .ok a → passed = stages

namespace Passes

variable {spared : List RunEffect} {first second : List Stage} {x : Action α}

/-! ### Several steps -/

theorem bind {f : α → Action β} (hx : Passes spared first x)
    (hf : ∀ a, Passes spared second (f a)) : Passes spared (first ++ second) (x >>= f) := by
  intro s
  obtain ⟨events, passed, hadds, hevents, hpassed, hall⟩ := hx s
  match hrun : x.run s with
  | (.error e, t) =>
    rw [hrun] at hadds
    rw [run_bind_of_error hrun]
    exact ⟨events, passed, hadds, hevents, hpassed.trans (List.prefix_append ..), fun a h => by cases h⟩
  | (.ok a, t) =>
    rw [hrun] at hadds hall
    obtain rfl := hall a rfl
    obtain ⟨more, others, hadds', hmore, hothers, hall'⟩ := hf a t
    rw [run_bind_of_ok hrun]
    refine ⟨events ++ more, passed ++ others, hadds.trans hadds', ?_,
      (List.prefix_append_right_inj passed).mpr hothers, fun b h => by rw [hall' b h]⟩
    intro e he
    exact (List.mem_append.mp he).elim (hevents e) (hmore e)

theorem mono {others : List RunEffect} (hx : Passes spared first x) (h : others ⊆ spared) :
    Passes others first x := by
  intro s
  obtain ⟨events, passed, hadds, hevents, hpassed, hall⟩ := hx s
  exact ⟨events, passed, hadds, fun e he => (hevents e he).mono h, hpassed, hall⟩

/-- A step before others that alone enter stages. -/
theorem before {f : α → Action β} (hx : Passes spared [] x) (hf : ∀ a, Passes spared second (f a)) :
    Passes spared second (x >>= f) := hx.bind hf

/-! ### Single steps -/

/-- An action that only adds an event that neither writes nor tells of a stage. -/
theorem of_record {r : Session → Except Fault α} {event : RunEvent}
    (h : ∀ s, x.run s = (r s, s.record [event])) (hspares : event.Spares spared)
    (hwrites : event.Spares [.write]) (hnotes : RunEvent.stageNotes [event] = []) :
    Passes spared [] x := by
  intro s
  rw [h]
  exact ⟨[event], [], .of_record (List.forall_mem_singleton.mpr hwrites) hnotes,
    List.forall_mem_singleton.mpr hspares, List.prefix_rfl, fun _ _ => rfl⟩

/-- An action that leaves the session as it is. -/
theorem of_run_eq {r : Session → Except Fault α} (h : ∀ s, x.run s = (r s, s)) :
    Passes spared [] x := by
  intro s
  rw [h]
  exact ⟨[], [], .refl s, by simp, List.prefix_rfl, fun _ _ => rfl⟩

theorem pure (a : α) : Passes spared [] (pure a : Action α) := of_run_eq fun s => run_pure a s

theorem throw (e : Fault) : Passes spared [] (throw e : Action α) := of_run_eq fun s => run_throw e s

theorem fail (p : Problem) : Passes spared [] (Action.fail p : Action α) :=
  of_run_eq fun s => run_fail p s

theorem lift (r : Except Fault α) : Passes spared [] (Action.lift r) := of_run_eq fun s => run_lift r s

theorem note {level : LogLevel} {message : String}
    (h : LogRecord.isStageNote ⟨level, message⟩ = false) :
    Passes spared [] (Action.note level message) :=
  of_record (fun s => run_note level message s) (RunEvent.spares_of_effect?_eq_none rfl _)
    (RunEvent.spares_of_effect?_eq_none rfl _) (by simp [RunEvent.stageNotes, RunEvent.record?, h])

theorem enterStage (stage : Stage) : Passes spared [stage] (Pipeline.enterStage stage) := by
  intro s
  have htold : (Pipeline.stageNote s.stage stage).isStageNote = true := by
    simp [LogRecord.isStageNote, Pipeline.stageNote, String.toList_append]
  refine ⟨[.note (Pipeline.stageNote s.stage stage)], [stage], ⟨rfl, rfl, rfl, rfl, ?_⟩,
    List.forall_mem_singleton.mpr (RunEvent.spares_of_effect?_eq_none rfl _), List.prefix_rfl,
    fun _ _ => rfl⟩
  simp [RunEvent.stageNotes, RunEvent.record?, Stage.notes, htold]

theorem start (tools : Toolbox) {role : ToolRole} (arguments : List String) (directory : Option Path)
    (h : .start role ∉ spared) : Passes spared [] (tools.start role arguments directory) := by
  have hspares : (RunEvent.start role arguments directory).Spares spared := by
    rintro x hx heq
    cases heq
    exact h hx
  have hwrites : (RunEvent.start role arguments directory).Spares [.write] := by
    simp [RunEvent.Spares, RunEvent.effect?]
  intro s
  match hstart : (tools role).outcome (s.starts role) with
  | .notStarted reason =>
    rw [Toolbox.run_start_of_notStarted hstart]
    exact ⟨_, [], .of_record (List.forall_mem_singleton.mpr hwrites) rfl,
      List.forall_mem_singleton.mpr hspares, List.prefix_rfl, fun _ _ => rfl⟩
  | .lost _ | .garbled _ | .ended _ =>
    rw [Toolbox.run_start_of_started (by simp [hstart])]
    exact ⟨_, [], .of_record (List.forall_mem_singleton.mpr hwrites) rfl,
      List.forall_mem_singleton.mpr hspares, List.prefix_rfl, fun _ _ => rfl⟩

theorem wait (tools : Toolbox) (role : ToolRole) (process : Nat) :
    Passes spared [] (tools.wait role process) :=
  of_record (fun s => Toolbox.run_wait tools role process s)
    (RunEvent.spares_of_effect?_eq_none rfl _) (RunEvent.spares_of_effect?_eq_none rfl _) rfl

/-- Steps that enter no stage, one for each item of a list. -/
theorem mapM {f : α → Action β} (h : ∀ a, Passes spared [] (f a)) (items : List α) :
    Passes spared [] (items.mapM f) := by
  induction items with
  | nil => exact pure []
  | cons a rest ih =>
    rw [List.mapM_cons]
    exact (h a).before fun b => ih.before fun bs => pure (b :: bs)

/-- What has happened before an action has happened afterwards. -/
theorem mem_history {s after : Session} {r : Except Fault α} {e : RunEvent}
    (hx : Passes spared first x) (hrun : x.run s = (r, after)) (h : e ∈ s.history) :
    e ∈ after.history := by
  obtain ⟨events, passed, hadds, -, -, -⟩ := hx s
  rw [hrun] at hadds
  rw [hadds.history]
  exact List.mem_append_left _ h

/-- What happens in a step has happened when several steps end. -/
theorem mem_history_bind {f : α → Action β} {s : Session} {e : RunEvent}
    (hf : ∀ a, Passes spared second (f a)) (h : e ∈ (x.run s).2.history) :
    e ∈ ((x >>= f).run s).2.history := by
  match hrun : x.run s with
  | (.error reason, after) =>
    rw [hrun] at h
    rwa [run_bind_of_error hrun]
  | (.ok a, after) =>
    rw [hrun] at h
    rw [run_bind_of_ok hrun]
    exact (hf a).mem_history rfl h

/-- An event with an effect that the first of several steps does not have comes behind it, and the
first step succeeds. -/
theorem exists_run_eq_ok {f : α → Action β} {s : Session} {e : RunEvent} {effect : RunEffect}
    (hx : Passes spared first x) (he : e.effect? = some effect) (heffect : effect ∈ spared)
    (hs : e ∉ s.history) (hmem : e ∈ ((x >>= f).run s).2.history) :
    ∃ a after, x.run s = (.ok a, after) ∧ e ∉ after.history ∧ e ∈ ((f a).run after).2.history := by
  obtain ⟨events, passed, hadds, hspares, -, -⟩ := hx s
  have hnot : e ∉ (x.run s).2.history := by
    rw [hadds.history, List.mem_append]
    rintro (hbefore | hevent)
    · exact hs hbefore
    · exact hspares e hevent effect heffect he
  match hrun : x.run s with
  | (.error reason, after) =>
    rw [run_bind_of_error hrun] at hmem
    rw [hrun] at hnot
    exact absurd hmem hnot
  | (.ok a, after) =>
    rw [run_bind_of_ok hrun] at hmem
    rw [hrun] at hnot
    exact ⟨a, after, rfl, hnot, hmem⟩

/-- An action that starts no tool in a role adds to the history no start of it. -/
theorem filter_history {role : ToolRole} (hx : Passes spared first x) (h : .start role ∈ spared)
    (s : Session) : (x.run s).2.history.filter (RunEvent.isStartOf role) =
      s.history.filter (RunEvent.isStartOf role) := by
  obtain ⟨events, passed, hadds, hevents, -, -⟩ := hx s
  have hnone : events.filter (RunEvent.isStartOf role) = [] :=
    List.filter_eq_nil_iff.mpr fun e he hstart =>
      hevents e he _ h (RunEvent.isStartOf_iff.mp hstart)
  rw [hadds.history, List.filter_append, hnone, List.append_nil]

/-- An action that starts no tool in a role leaves the number of its starts as it is. -/
theorem starts_eq {role : ToolRole} {s after : Session} {r : Except Fault α}
    (hx : Passes spared first x) (h : .start role ∈ spared) (hrun : x.run s = (r, after)) :
    after.starts role = s.starts role := by
  have hsame := hx.filter_history h s
  rw [hrun] at hsame
  rw [Session.starts, Session.starts, List.countP_eq_length_filter, List.countP_eq_length_filter,
    hsame]

/-- Behind a step, others that start no tool in a role add no start of it. -/
theorem filter_history_bind {role : ToolRole} {f : α → Action β}
    (hf : ∀ a, Passes spared second (f a)) (h : .start role ∈ spared) (s : Session) :
    ((x >>= f).run s).2.history.filter (RunEvent.isStartOf role) =
      (x.run s).2.history.filter (RunEvent.isStartOf role) := by
  match hrun : x.run s with
  | (.error e, after) => rw [run_bind_of_error hrun]
  | (.ok a, after) => rw [run_bind_of_ok hrun, (hf a).filter_history h]

end Passes

end Action

end ElmSuite
