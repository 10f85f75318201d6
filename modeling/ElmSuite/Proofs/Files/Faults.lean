import ElmSuite.Files.Resolve

/-!
# Faults of lookups

A lookup that gets nowhere finds nothing, but for names that are too long. Resolving a path is refused
by the file system, or ends at links that lead back to themselves or at the character `U+0000`.
-/

namespace ElmSuite

namespace FileSystem

variable {fs : FileSystem}

/-- What can keep a path from being resolved. -/
inductive ResolveFault : Fault → Prop
  | refused (e : FileError) : ResolveFault (.file e)
  | loop (path : String) : ResolveFault (.linkLoop path)
  | nul : ResolveFault .embeddedNul

theorem resolveFault_of_entryAt {p : Path} {e : Fault} (h : fs.entryAt p = .error e) :
    ResolveFault e := by
  rw [entryAt] at h
  split at h
  · exact Except.error.inj h ▸ .nul
  · split at h
    · cases h
    · exact Except.error.inj h ▸ .refused _

theorem resolveFault_loopFault (fs : FileSystem) (link : Path) :
    ResolveFault (fs.loopFault link) := by
  rw [loopFault]
  split
  · split
    · exact .loop _
    · exact .refused _
  · exact .loop _

theorem resolveFault_of_resolveNames
    {resolveTarget : Path → Path → List String → Except Fault Path} {opened : List Path}
    {place : Path} {names : List String} {e : Fault}
    (htarget : ∀ link start rest e, resolveTarget link start rest = .error e → ResolveFault e)
    (h : fs.resolveNames resolveTarget opened place names = .error e) : ResolveFault e := by
  induction names generalizing place with
  | nil => cases h
  | cons name rest ih =>
    rw [resolveNames] at h
    split at h
    · exact ih h
    · dsimp only at h
      split at h
      · next hentry => exact Except.error.inj h ▸ resolveFault_of_entryAt hentry
      · split at h
        · exact Except.error.inj h ▸ resolveFault_loopFault fs _
        · split at h
          · next hgoal => exact Except.error.inj h ▸ htarget _ _ _ _ hgoal
          · exact ih h
      · exact ih h

theorem resolveFault_of_resolveWithin {depth : Nat} {opened : List Path} {place : Path}
    {names : List String} {e : Fault} (h : fs.resolveWithin depth opened place names = .error e) :
    ResolveFault e := by
  induction depth generalizing opened place names e with
  | zero => exact resolveFault_of_resolveNames (fun _ _ _ _ h => Except.error.inj h ▸ .loop _) h
  | succ depth ih => exact resolveFault_of_resolveNames (fun _ _ _ _ h => ih h) h

theorem resolveFault_of_resolve {p : Path} {e : Fault} (h : fs.resolve p = .error e) :
    ResolveFault e := by
  rw [resolve] at h
  split at h
  · next hwithin => exact Except.error.inj h ▸ resolveFault_of_resolveWithin hwithin
  · cases h

/-- A lookup of a path that may lead nowhere fails only where a name is too long. -/
theorem reason_of_stride {root : Node} {follow : Bool} {place names : List String}
    {reason : FileErrorReason} (h : stride root follow place names = .error reason) :
    reason.isAbsence = true ∨ reason = .nameTooLong := by
  induction names generalizing place with
  | nil => cases h
  | cons name rest ih =>
    rw [stride] at h
    split at h
    · exact .inl (Except.error.inj h ▸ rfl)
    · exact .inl (Except.error.inj h ▸ rfl)
    · exact .inl (Except.error.inj h ▸ rfl)
    · split at h
      · exact ih h
      · split at h
        · exact ih h
        · split at h
          · exact .inr (Except.error.inj h).symm
          · split at h
            · split at h
              · cases h
              · exact .inl (Except.error.inj h ▸ rfl)
            · split at h
              · cases h
              · cases h
            · exact ih h

theorem reason_of_walk {root : Node} {follow : Bool} {links : Nat} {place names : List String}
    {reason : FileErrorReason} (h : walk root follow links place names = .error reason) :
    reason.isAbsence = true ∨ reason = .nameTooLong := by
  induction links generalizing place names with
  | zero =>
    rw [walk] at h
    split at h
    · next hstride => exact Except.error.inj h ▸ reason_of_stride hstride
    · cases h
    · exact .inl (Except.error.inj h ▸ rfl)
  | succ links ih =>
    rw [walk] at h
    split at h
    · next hstride => exact Except.error.inj h ▸ reason_of_stride hstride
    · cases h
    · exact ih h

theorem reason_of_status {p : Path} {follow : Bool} {reason : FileErrorReason}
    (h : fs.status p follow = .error reason) :
    reason.isAbsence = true ∨ reason = .nameTooLong := by
  rw [status, arrivedAt.eq_def] at h
  split at h
  · next hfind =>
    rw [find, lookUp] at hfind
    split at hfind
    · exact .inr (Except.error.inj h ▸ (Except.error.inj hfind).symm)
    · split at hfind
      · exact .inl (Except.error.inj h ▸ Except.error.inj hfind ▸ rfl)
      · exact Except.error.inj h ▸ reason_of_walk hfind
  · exact .inl (Except.error.inj h ▸ rfl)
  · split at h
    · cases h
    · exact .inl (Except.error.inj h ▸ rfl)

/-- Of what kind a node is cannot be told only where a name is too long. -/
theorem reason_of_leadsTo {kind : Node → Bool} {p : Path} {e : FileError}
    (h : fs.leadsTo kind p = .error e) : e = ⟨.nameTooLong, toString p⟩ := by
  rw [leadsTo] at h
  split at h
  · cases h
  · split at h
    · cases h
    · next reason hstatus =>
      split at h
      · cases h
      · next habsence =>
        rcases reason_of_status hstatus with hreason | rfl
        · exact absurd hreason habsence
        · exact (Except.error.inj h).symm

/-- Whether there is a directory cannot be told only where a name is too long. -/
theorem reason_of_isDir {p : Path} {e : FileError} (h : fs.isDir p = .error e) :
    e = ⟨.nameTooLong, toString p⟩ :=
  reason_of_leadsTo h

/-- Where it can be told whether there is a node of one kind, it can be told of another. -/
theorem exists_leadsTo {kind kind' : Node → Bool} {p : Path} {b : Bool}
    (h : fs.leadsTo kind p = .ok b) : ∃ b', fs.leadsTo kind' p = .ok b' := by
  rw [leadsTo] at h ⊢
  split
  · exact ⟨false, rfl⟩
  · next hnul =>
    rw [if_neg hnul] at h
    split
    · exact ⟨_, rfl⟩
    · next hstatus =>
      rw [hstatus] at h
      split
      · exact ⟨false, rfl⟩
      · next habsence => cases (if_neg habsence).symm.trans h

end FileSystem

end ElmSuite
