import ElmSuite.Files.Change
import ElmSuite.Files.Glob
import ElmSuite.Files.Resolve
import ElmSuite.Files.Search
import ElmSuite.Proofs.Run.Action

/-!
# Faults that blame no worker

Whatever leads up to the workers fails, if it fails, for a reason other than failed
workers. This is seen step by step: several steps blame no worker if none of them does.
The steps that read and change files have no problem to report at all.
-/

namespace ElmSuite

/-- Whether a fault is the problem that workers failed. -/
def Fault.blamesWorkers : Fault → Bool
  | .problem (.workerFailures ..) => true
  | _ => false

/-- Whether a result is not a fault that blames workers. -/
def BlamesNoWorker {α : Type} (r : Except Fault α) : Prop :=
  ∀ e, r = .error e → e.blamesWorkers = false

namespace BlamesNoWorker

variable {α β : Type}

theorem ok (a : α) : BlamesNoWorker (.ok a) := nofun

theorem error {e : Fault} (h : e.blamesWorkers = false) :
    BlamesNoWorker (.error e : Except Fault α) := by
  rintro _ ⟨⟩
  exact h

/-- A fault that is handed on. -/
theorem of_eq_error {r : Except Fault α} {e : Fault} (hr : BlamesNoWorker r) (h : r = .error e) :
    BlamesNoWorker (.error e : Except Fault β) := error (hr e h)

theorem bind {r : Except Fault α} {f : α → Except Fault β} (hr : BlamesNoWorker r)
    (hf : ∀ a, BlamesNoWorker (f a)) : BlamesNoWorker (r >>= f) := by
  cases r with
  | error e => exact hr.of_eq_error rfl
  | ok a => exact hf a

/-- No step is done behind a fault. -/
theorem throw_bind {e : Fault} (h : e.blamesWorkers = false) (f : α → Except Fault β) :
    BlamesNoWorker (throw e >>= f) := error h

/-- Faults that are made from errors of another type. -/
theorem mapError {ε : Type} {f : ε → Fault} (h : ∀ e, (f e).blamesWorkers = false)
    (r : Except ε α) : BlamesNoWorker (r.mapError f) := by
  cases r with
  | error e => exact error (h e)
  | ok a => exact ok a

theorem map {r : Except Fault α} (hr : BlamesNoWorker r) (f : α → β) : BlamesNoWorker (r.map f) := by
  cases r with
  | error e => exact hr.of_eq_error rfl
  | ok a => exact ok (f a)

theorem mapError_problem {r : Except Problem α}
    (h : ∀ p, r = .error p → (Fault.problem p).blamesWorkers = false) :
    BlamesNoWorker (r.mapError Fault.problem) := by
  cases r with
  | error p => exact error (h p rfl)
  | ok a => exact ok a

theorem mapError_file (r : Except FileError α) : BlamesNoWorker (r.mapError Fault.file) :=
  mapError (fun _ => rfl) r

theorem mapM {f : α → Except Fault β} (h : ∀ a, BlamesNoWorker (f a)) (items : List α) :
    BlamesNoWorker (items.mapM f) := by
  induction items with
  | nil => exact ok []
  | cons a rest ih =>
    rw [List.mapM_cons]
    exact (h a).bind fun b => ih.bind fun bs => ok (b :: bs)

theorem forM {f : α → Except Fault PUnit} (h : ∀ a, BlamesNoWorker (f a)) (items : List α) :
    BlamesNoWorker (items.forM f) := by
  induction items with
  | nil => exact ok _
  | cons a rest ih => exact (h a).bind fun _ => ih

theorem filterM {f : α → Except Fault Bool} (h : ∀ a, BlamesNoWorker (f a)) (items : List α) :
    BlamesNoWorker (items.filterM f) := by
  -- The items kept so far are an argument of the loop, so the induction is for all of them.
  have haux : ∀ kept, BlamesNoWorker (items.filterAuxM f kept) := by
    induction items with
    | nil => exact fun kept => ok kept
    | cons a rest ih => exact fun kept => (h a).bind fun b => ih _
  exact (haux []).bind fun kept => ok kept.reverse

end BlamesNoWorker

/-! ## Actions -/

/-- Whether an action does not fail because of workers, and keeps what is observed of the session. -/
def Action.Keeps {α γ : Type} (observed : Session → γ) (x : Action α) : Prop :=
  ∀ s, BlamesNoWorker (x.run s).1 ∧ observed (x.run s).2 = observed s

namespace Action.Keeps

variable {α β γ : Type} {observed : Session → γ}

theorem bind {x : Action α} {f : α → Action β} (hx : Keeps observed x)
    (hf : ∀ a, Keeps observed (f a)) : Keeps observed (x >>= f) := by
  intro s
  obtain ⟨hblame, hsame⟩ := hx s
  match hrun : x.run s with
  | (.ok a, after) =>
    rw [hrun] at hsame
    obtain ⟨hblame', hsame'⟩ := hf a after
    rw [run_bind_of_ok hrun]
    exact ⟨hblame', hsame'.trans hsame⟩
  | (.error e, after) =>
    rw [hrun] at hblame hsame
    rw [run_bind_of_error hrun]
    exact ⟨hblame.of_eq_error rfl, hsame⟩

theorem pure (a : α) : Keeps observed (pure a : Action α) := fun _ => ⟨.ok a, rfl⟩

theorem get : Keeps observed (get : Action Session) := fun _ => ⟨.ok _, rfl⟩

theorem throw {e : Fault} (h : e.blamesWorkers = false) :
    Keeps observed (throw e : Action α) := fun _ => ⟨.error h, rfl⟩

theorem fail {p : Problem} (h : (Fault.problem p).blamesWorkers = false) :
    Keeps observed (Action.fail p : Action α) := throw h

theorem lift {r : Except Fault α} (h : BlamesNoWorker r) : Keeps observed (Action.lift r) := by
  intro s
  rw [run_lift]
  exact ⟨h, rfl⟩

theorem change {f : Session → Session} (h : ∀ s, observed (f s) = observed s) :
    Keeps observed (Action.change f) := fun s => ⟨.ok _, h s⟩

theorem mapM {f : α → Action β} (h : ∀ a, Keeps observed (f a)) (items : List α) :
    Keeps observed (items.mapM f) := by
  induction items with
  | nil => exact pure []
  | cons a rest ih =>
    rw [List.mapM_cons]
    exact (h a).bind fun b => ih.bind fun bs => pure (b :: bs)

end Action.Keeps

/-! ## Files -/

namespace FileSystem

variable (fs : FileSystem)

theorem blamesNoWorker_checkPath (p : Path) : BlamesNoWorker (checkPath p) := by
  rw [checkPath]
  split
  · exact .error rfl
  · exact .ok _

theorem blamesNoWorker_read (p : Path) : BlamesNoWorker (fs.read p) := by
  rw [read]
  split
  · exact .error rfl
  · split
    · exact .ok _
    · exact .error rfl
    · exact .error rfl

theorem blamesNoWorker_entryAt (p : Path) : BlamesNoWorker (fs.entryAt p) := by
  rw [entryAt]
  split
  · exact .error rfl
  · split
    · exact .ok _
    · exact .error rfl

theorem blamesNoWorker_loopFault (link : Path) :
    BlamesNoWorker (.error (fs.loopFault link) : Except Fault Path) := by
  rw [loopFault]
  split
  · split <;> exact .error rfl
  · exact .error rfl

theorem blamesNoWorker_resolveNames {resolveTarget : Path → Path → List String → Except Fault Path}
    (h : ∀ link start names, BlamesNoWorker (resolveTarget link start names)) (opened : List Path)
    (place : Path) (names : List String) :
    BlamesNoWorker (fs.resolveNames resolveTarget opened place names) := by
  induction names generalizing place with
  | nil => exact .ok _
  | cons name rest ih =>
    rw [resolveNames]
    split
    · exact ih _
    · dsimp only
      split
      · next e he => exact (fs.blamesNoWorker_entryAt _).of_eq_error he
      · split
        · exact fs.blamesNoWorker_loopFault _
        · split
          · next e he => exact (h _ _ _).of_eq_error he
          · exact ih _
      · exact ih _

theorem blamesNoWorker_resolveWithin (depth : Nat) (opened : List Path) (place : Path)
    (names : List String) : BlamesNoWorker (fs.resolveWithin depth opened place names) := by
  induction depth generalizing opened place names with
  | zero => exact fs.blamesNoWorker_resolveNames (fun _ _ _ => .error rfl) opened place names
  | succ depth ih => exact fs.blamesNoWorker_resolveNames (fun _ _ _ => ih _ _ _) opened place names

theorem blamesNoWorker_resolve (p : Path) : BlamesNoWorker (fs.resolve p) := by
  rw [resolve]
  split
  · next e he => exact (fs.blamesNoWorker_resolveWithin _ _ _ _).of_eq_error he
  · exact .ok _

theorem blamesNoWorker_makeDirectories (p : Path) : BlamesNoWorker (fs.makeDirectories p) :=
  (blamesNoWorker_checkPath p).bind fun _ => .mapError_file _

theorem blamesNoWorker_write (p : Path) (content : List UInt8) :
    BlamesNoWorker (fs.write p content) := by
  refine (blamesNoWorker_checkPath p).bind fun _ => ?_
  split
  · exact .error rfl
  · exact .ok _
  · split
    · exact .ok _
    · exact .error rfl

theorem blamesNoWorker_writeTextWithParents (p : Path) (text : String) :
    BlamesNoWorker (fs.writeTextWithParents p text) :=
  (fs.blamesNoWorker_makeDirectories p.parent).bind fun above => above.blamesNoWorker_write p _

theorem blamesNoWorker_enter (p : Path) : BlamesNoWorker (fs.enter p) := by
  refine (blamesNoWorker_checkPath p).bind fun _ => ?_
  split
  · exact .error rfl
  · split
    · exact .ok _
    · exact .error rfl

theorem blamesNoWorker_expandName (name : String) (dirsOnly : Bool) (dir : Path) :
    BlamesNoWorker (fs.expandName name dirsOnly dir) := by
  rw [expandName]
  split
  · split
    · exact .error rfl
    · exact .ok _
  · split
    · split
      · exact .error rfl
      · exact .ok _
    · exact .ok _

theorem blamesNoWorker_expandNames (names : List String) (dirs : List Path) :
    BlamesNoWorker (fs.expandNames names dirs) := by
  induction names generalizing dirs with
  | nil => exact .ok _
  | cons name rest ih =>
    exact (BlamesNoWorker.mapM (fs.blamesNoWorker_expandName name _) dirs).bind fun next => ih _

theorem blamesNoWorker_expand (pattern : Path) : BlamesNoWorker (fs.expand pattern) := by
  rw [expand]
  split
  · exact .ok _
  · exact fs.blamesNoWorker_expandNames _ _

end FileSystem

theorem Surroundings.blamesNoWorker_homeFor (s : Surroundings) (user : List Char) :
    BlamesNoWorker (s.homeFor user) := by
  rw [homeFor]
  split
  · exact .ok _
  · split
    · exact .error rfl
    · split
      · exact .ok _
      · exact .error rfl

theorem Surroundings.blamesNoWorker_expandHome (s : Surroundings) (p : Path) :
    BlamesNoWorker (s.expandHome p) := by
  rw [expandHome]
  split
  · split
    · split
      · next e he => exact (s.blamesNoWorker_homeFor _).of_eq_error he
      · split
        · exact .error rfl
        · exact .ok _
    · exact .ok _
  · exact .ok _

end ElmSuite
