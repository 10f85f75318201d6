import ElmSuite.Run.Tool

/-!
# Running actions

What an action gives, and the session that it leaves, for the steps that actions are
made of. A run of several steps is the run of the first one, followed by the run of
the others on the session that it leaves.
-/

namespace ElmSuite

namespace Action

variable {α β : Type}

theorem run_bind (x : Action α) (f : α → Action β) (s : Session) :
    (x >>= f).run s = ExceptT.bindCont f (x.run s).1 (x.run s).2 := rfl

/-- The steps behind one that succeeds. -/
theorem run_bind_of_ok {x : Action α} {f : α → Action β} {s after : Session} {a : α}
    (h : x.run s = (.ok a, after)) : (x >>= f).run s = (f a).run after := by
  rw [run_bind, h]
  rfl

/-- No step is done behind one that fails. -/
theorem run_bind_of_error {x : Action α} {f : α → Action β} {s after : Session} {e : Fault}
    (h : x.run s = (.error e, after)) : (x >>= f).run s = (.error e, after) := by
  rw [run_bind, h]
  rfl

/-- Several steps succeed when each of them does. -/
theorem run_bind_eq_ok {x : Action α} {f : α → Action β} {s after : Session} {b : β}
    (h : (x >>= f).run s = (.ok b, after)) :
    ∃ a mid, x.run s = (.ok a, mid) ∧ (f a).run mid = (.ok b, after) := by
  match hx : x.run s with
  | (.ok a, mid) =>
    rw [run_bind_of_ok hx] at h
    exact ⟨a, mid, rfl, h⟩
  | (.error e, mid) =>
    rw [run_bind_of_error hx] at h
    cases h

/-- Several steps fail when one of them does. -/
theorem run_bind_eq_error {x : Action α} {f : α → Action β} {s after : Session} {e : Fault}
    (h : (x >>= f).run s = (.error e, after)) :
    x.run s = (.error e, after) ∨
      ∃ a mid, x.run s = (.ok a, mid) ∧ (f a).run mid = (.error e, after) := by
  match hx : x.run s with
  | (.ok a, mid) =>
    rw [run_bind_of_ok hx] at h
    exact .inr ⟨a, mid, rfl, h⟩
  | (.error e', mid) =>
    rw [run_bind_of_error hx] at h
    cases h
    exact .inl rfl

@[simp] theorem run_pure (a : α) (s : Session) : (pure a : Action α).run s = (.ok a, s) := rfl

@[simp] theorem run_throw (e : Fault) (s : Session) :
    (throw e : Action α).run s = (.error e, s) := rfl

@[simp] theorem run_get (s : Session) : (get : Action Session).run s = (.ok s, s) := rfl

@[simp] theorem run_change (f : Session → Session) (s : Session) :
    (change f).run s = (.ok (), f s) := rfl

@[simp] theorem run_note (level : LogLevel) (message : String) (s : Session) :
    (note level message).run s = (.ok (), s.note [⟨level, message⟩]) := rfl

@[simp] theorem run_fail (p : Problem) (s : Session) :
    (fail p : Action α).run s = (.error (.problem p), s) := rfl

@[simp] theorem run_lift (r : Except Fault α) (s : Session) : (lift r).run s = (r, s) := by
  cases r with
  | ok a => rfl
  | error e => rfl

theorem run_get_bind (f : Session → Action β) (s : Session) : (get >>= f).run s = (f s).run s := rfl

/-- Steps behind a result succeed when there is one and they succeed on it. -/
theorem run_lift_bind_eq_ok {r : Except Fault α} {f : α → Action β} {s after : Session} {b : β}
    (h : (lift r >>= f).run s = (.ok b, after)) : ∃ a, r = .ok a ∧ (f a).run s = (.ok b, after) := by
  obtain ⟨a, mid, hlift, h⟩ := run_bind_eq_ok h
  rw [run_lift, Prod.mk.injEq] at hlift
  obtain ⟨rfl, rfl⟩ := hlift
  exact ⟨a, rfl, h⟩

end Action

namespace Session

@[simp] theorem record_record (s : Session) (first second : List RunEvent) :
    (s.record first).record second = s.record (first ++ second) := by
  simp [record]

/-- How often an event list starts the tool in a role adds to the count. -/
theorem starts_record (s : Session) (events : List RunEvent) (role : ToolRole) :
    (s.record events).starts role = s.starts role + events.countP (RunEvent.isStartOf role) := by
  simp [starts]

end Session

namespace Toolbox

/-- Starting a tool that runs, whatever becomes of its process. -/
theorem run_start_of_started {tools : Toolbox} {role : ToolRole} {arguments : List String}
    {directory : Option Path} {s : Session}
    (h : ∀ reason, (tools role).outcome (s.starts role) ≠ .notStarted reason) :
    (tools.start role arguments directory).run s =
      (.ok (.ok (s.starts role)), s.record [.start role arguments directory]) := by
  rw [start, Action.run_bind_of_ok (Action.run_get s), Action.run_bind_of_ok (Action.run_change ..)]
  split
  · next reason hreason => exact absurd hreason (h reason)
  · rfl

/-- Starting a tool whose process will end. -/
theorem run_start_of_ended {tools : Toolbox} {role : ToolRole} {arguments : List String}
    {directory : Option Path} {s : Session} {r : ProcessResult}
    (h : (tools role).outcome (s.starts role) = .ended r) :
    (tools.start role arguments directory).run s =
      (.ok (.ok (s.starts role)), s.record [.start role arguments directory]) :=
  run_start_of_started fun reason => by simp [h]

/-- Starting a tool in vain. -/
theorem run_start_of_notStarted {tools : Toolbox} {role : ToolRole} {arguments : List String}
    {directory : Option Path} {s : Session} {reason : String}
    (h : (tools role).outcome (s.starts role) = .notStarted reason) :
    (tools.start role arguments directory).run s =
      (.ok (.error reason), s.record [.start role arguments directory]) := by
  rw [start, Action.run_bind_of_ok (Action.run_get s), Action.run_bind_of_ok (Action.run_change ..),
    h]
  rfl

@[simp] theorem run_wait (tools : Toolbox) (role : ToolRole) (process : Nat) (s : Session) :
    (tools.wait role process).run s =
      (.ok ((tools role).outcome process), s.record [.wait role process]) := rfl

end Toolbox

end ElmSuite
