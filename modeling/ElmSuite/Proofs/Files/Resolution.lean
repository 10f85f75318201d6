import Mathlib.Logic.Relation
import ElmSuite.Proofs.Files.Growth

/-!
# Resolving paths in files that grow

What resolving a path does is told by a relation, in which a link is followed only while
its target is resolved less deep. A file system in which nodes were added resolves each
path as before. An absolute path is resolved in the same way from every working directory.
-/

namespace ElmSuite.FileSystem

variable {fs after : FileSystem} {depth : Nat} {opened : List Path} {place q : Path}
  {names : List String}

/-! ## How names are resolved -/

/-- Where the target of a link in a place is resolved from. -/
def targetStart (place : Path) (target : String) : Path :=
  if (Path.ofString target).isAbsolute then ⟨.root, []⟩ else place

/-- How names are resolved from a place, links inside links being followed `depth` deep. -/
inductive Resolves (fs : FileSystem) : Nat → List Path → Path → List String → Path → Prop
  | arrived {depth : Nat} {opened : List Path} {place : Path} :
    Resolves fs depth opened place [] place
  | up {depth : Nat} {opened : List Path} {place q : Path} {rest : List String}
    (h : Resolves fs depth opened (above place) rest q) :
    Resolves fs depth opened place (".." :: rest) q
  | down {depth : Nat} {opened : List Path} {place q : Path} {name : String} {rest : List String}
    {node : Node} (hup : name ≠ "..") (hentry : fs.entryAt (place.child name) = .ok node)
    (hlink : ∀ target, node ≠ .link target)
    (h : Resolves fs depth opened (place.child name) rest q) :
    Resolves fs depth opened place (name :: rest) q
  | follow {depth : Nat} {opened : List Path} {place reached q : Path} {name target : String}
    {rest : List String} (hup : name ≠ "..")
    (hentry : fs.entryAt (place.child name) = .ok (.link target))
    (hnew : place.child name ∉ opened)
    (htarget : Resolves fs depth (place.child name :: opened) (targetStart place target)
      (Path.ofString target).names reached)
    (h : Resolves fs (depth + 1) opened reached rest q) :
    Resolves fs (depth + 1) opened place (name :: rest) q

/-- How the target of a link is resolved. -/
def resolveTarget (fs : FileSystem) :
    Nat → List Path → Path → Path → List String → Except Fault Path
  | 0, _, link, _, _ => .error (.linkLoop (toString link))
  | depth + 1, opened, link, start, rest => fs.resolveWithin depth (link :: opened) start rest

theorem resolveWithin_eq (depth : Nat) (opened : List Path) (place : Path) (names : List String) :
    fs.resolveWithin depth opened place names =
      fs.resolveNames (fs.resolveTarget depth opened) opened place names := by
  cases depth <;> rfl

section Steps

variable {p : Path} {name : String} {rest : List String}

theorem resolveWithin_up :
    fs.resolveWithin depth opened p (".." :: rest) =
      fs.resolveWithin depth opened (above p) rest := by
  rw [resolveWithin_eq, resolveWithin_eq, resolveNames, if_pos rfl]

theorem resolveWithin_down {node : Node} (hup : name ≠ "..")
    (hentry : fs.entryAt (p.child name) = .ok node) (hlink : ∀ target, node ≠ .link target) :
    fs.resolveWithin depth opened p (name :: rest) =
      fs.resolveWithin depth opened (p.child name) rest := by
  rw [resolveWithin_eq, resolveWithin_eq, resolveNames, if_neg hup]
  dsimp only
  rw [hentry]
  cases node with
  | link target => exact absurd rfl (hlink target)
  | file | dir => rfl

theorem resolveWithin_follow {target : String} (hup : name ≠ "..")
    (hentry : fs.entryAt (p.child name) = .ok (.link target)) (hnew : p.child name ∉ opened) :
    fs.resolveWithin (depth + 1) opened p (name :: rest) =
      (fs.resolveWithin depth (p.child name :: opened) (targetStart p target)
        (Path.ofString target).names).bind
          fun reached => fs.resolveWithin (depth + 1) opened reached rest := by
  simp only [resolveWithin_eq (depth + 1)]
  rw [resolveNames, if_neg hup]
  dsimp only
  rw [hentry]
  dsimp only
  rw [if_neg hnew, resolveTarget, targetStart]
  cases fs.resolveWithin depth _ _ _ <;> rfl

theorem resolveWithin_refused {e : Fault} (hup : name ≠ "..")
    (hentry : fs.entryAt (p.child name) = .error e) :
    fs.resolveWithin depth opened p (name :: rest) = .error e := by
  rw [resolveWithin_eq, resolveNames, if_neg hup]
  dsimp only
  rw [hentry]

end Steps

theorem Resolves.resolveWithin (h : fs.Resolves depth opened place names q) :
    fs.resolveWithin depth opened place names = .ok q := by
  induction h with
  | arrived =>
    rw [resolveWithin_eq]
    rfl
  | up h ih => rw [resolveWithin_up, ih]
  | down hup hentry hlink h ih => rw [resolveWithin_down hup hentry hlink, ih]
  | follow hup hentry hnew htarget h ihTarget ih =>
    rw [resolveWithin_follow hup hentry hnew, ihTarget]
    exact ih

theorem resolves_of_resolveNames {T : Path → Path → List String → Except Fault Path}
    (hT : ∀ {link start names q}, T link start names = .ok q →
      ∃ below, depth = below + 1 ∧ fs.Resolves below (link :: opened) start names q)
    (h : fs.resolveNames T opened place names = .ok q) :
    fs.Resolves depth opened place names q := by
  induction names generalizing place with
  | nil => exact Except.ok.inj h ▸ .arrived
  | cons name rest ih =>
    rw [resolveNames] at h
    split at h
    · next hup => exact hup ▸ .up (ih h)
    · next hup =>
      dsimp only at h
      split at h
      · cases h
      · next target hentry =>
        split at h
        · cases h
        · next hnew =>
          split at h
          · cases h
          · next reached hreached =>
            obtain ⟨below, rfl, htarget⟩ := hT hreached
            exact .follow hup hentry hnew htarget (ih h)
      · next node hlink hentry => exact .down hup hentry (fun target heq => hlink target heq) (ih h)

/-- What resolving names does. -/
theorem resolveWithin_eq_ok_iff :
    fs.resolveWithin depth opened place names = .ok q ↔ fs.Resolves depth opened place names q := by
  refine ⟨fun h => ?_, Resolves.resolveWithin⟩
  induction depth generalizing opened place names q with
  | zero => exact resolves_of_resolveNames (fun htarget => by cases htarget) h
  | succ depth ih => exact resolves_of_resolveNames (fun htarget => ⟨depth, rfl, ih htarget⟩) h

/-- Names are resolved in the same way with links followed deeper. -/
theorem Resolves.mono (h : fs.Resolves depth opened place names q) {deeper : Nat}
    (hle : depth ≤ deeper) : fs.Resolves deeper opened place names q := by
  induction h generalizing deeper with
  | arrived => exact .arrived
  | up h ih => exact .up (ih hle)
  | down hup hentry hlink h ih => exact .down hup hentry hlink (ih hle)
  | follow hup hentry hnew htarget h ihTarget ih =>
    obtain ⟨deeper, rfl⟩ := Nat.exists_eq_add_of_lt hle
    exact .follow hup hentry hnew (ihTarget (by omega)) (ih (by omega))

/-! ## What paths are resolved to -/

theorem resolve_eq (p : Path) : fs.resolve p =
    (fs.resolveWithin fs.resolveDepth [] (resolveStart p) p.names).map fs.fromWorkingDirectory := by
  rw [resolve]
  cases fs.resolveWithin fs.resolveDepth [] (resolveStart p) p.names <;> rfl

theorem resolve_eq_ok_iff {p : Path} : fs.resolve p = .ok q ↔
    ∃ reached, fs.Resolves fs.resolveDepth [] (resolveStart p) p.names reached ∧
      fs.fromWorkingDirectory reached = q := by
  simp only [resolve_eq, ← resolveWithin_eq_ok_iff]
  cases fs.resolveWithin fs.resolveDepth [] (resolveStart p) p.names with
  | error e => simp [Except.map]
  | ok reached => simp [Except.map]

/-- Whether a path is read from its text as it is written, but for the slashes of its root. -/
structure IsWritten (p : Path) : Prop where
  anchor : p.anchor ≠ .doubleRoot
  isName : ∀ name ∈ p.names, Path.IsName name

theorem IsWritten.child (h : IsWritten place) {name : String} (hname : Path.IsName name) :
    IsWritten (place.child name) where
  anchor := h.anchor
  isName n hn := by
    rcases List.mem_append.mp hn with hn | hn
    · exact h.isName n hn
    · exact List.mem_singleton.mp hn ▸ hname

theorem IsWritten.above (h : IsWritten place) : IsWritten (above place) := by
  have hup : Path.IsName ".." := ⟨by decide, by decide, by decide⟩
  rw [FileSystem.above]
  split
  · split
    · exact h
    · exact h.child hup
  · split
    · exact h.child hup
    · exact ⟨h.anchor, fun n hn => h.isName n (List.dropLast_subset _ hn)⟩

theorem Resolves.isWritten (h : fs.Resolves depth opened place names q) (hplace : IsWritten place)
    (hnames : ∀ name ∈ names, Path.IsName name) : IsWritten q := by
  induction h with
  | arrived => exact hplace
  | up h ih => exact ih hplace.above fun n hn => hnames n (List.mem_cons_of_mem _ hn)
  | down hup hentry hlink h ih =>
    obtain ⟨hname, hrest⟩ := List.forall_mem_cons.mp hnames
    exact ih (hplace.child hname) hrest
  | follow hup hentry hnew htarget h ihTarget ih =>
    refine ih (ihTarget ?_ fun n hn => Path.isName_of_mem_ofString hn)
      fun n hn => hnames n (List.mem_cons_of_mem _ hn)
    rw [targetStart]
    split
    · exact ⟨nofun, nofun⟩
    · exact hplace

theorem withoutUps_append_singleton (front : List String) (name : String) :
    withoutUps (front ++ [name]) =
      if name = ".." then (withoutUps front).dropLast else withoutUps front ++ [name] := by
  rw [withoutUps, List.foldl_append, ← withoutUps, List.foldl_cons, List.foldl_nil]

theorem withoutUps_of_not_mem (h : ".." ∉ names) : withoutUps names = names := by
  induction names using List.reverseRecOn with
  | nil => rfl
  | append_singleton front last ih =>
    simp only [List.mem_append, List.mem_singleton, not_or] at h
    rw [withoutUps_append_singleton, if_neg (Ne.symm h.2), ih h.1]

theorem mem_of_mem_withoutUps {names : List String} {name : String} (h : name ∈ withoutUps names) :
    name ∈ names := by
  induction names using List.reverseRecOn with
  | nil => exact h
  | append_singleton names last ih =>
    rw [withoutUps_append_singleton] at h
    rw [List.mem_append]
    split at h
    · exact .inl (ih (List.dropLast_subset _ h))
    · exact (List.mem_append.mp h).imp_left ih

/-- A path is resolved to an absolute one that is read from its text as it is written. -/
theorem isName_of_resolve {p : Path}
    (hdirectory : ∀ name ∈ fs.workingDirectory.getD [], Path.IsName name)
    (hnames : ∀ name ∈ p.names, Path.IsName name) (h : fs.resolve p = .ok q) :
    q.anchor = .root ∧ ∀ name ∈ q.names, Path.IsName name := by
  obtain ⟨reached, hreached, rfl⟩ := resolve_eq_ok_iff.mp h
  have hwritten : IsWritten reached := by
    refine hreached.isWritten ⟨?_, by simp [resolveStart]⟩ hnames
    rw [resolveStart]
    split <;> simp
  rw [fromWorkingDirectory]
  split
  · next habsolute =>
    refine ⟨?_, hwritten.isName⟩
    have hanchor := hwritten.anchor
    cases hat : reached.anchor with
    | root => rfl
    | here => simp [Path.isAbsolute, hat] at habsolute
    | doubleRoot => exact absurd hat hanchor
  · refine ⟨rfl, fun name hname => ?_⟩
    rcases List.mem_append.mp (mem_of_mem_withoutUps hname) with hname | hname
    · exact hdirectory name hname
    · exact hwritten.isName name hname

/-! ## Files that grow -/

/-- In a file system in which nodes were added, names are resolved as before. -/
theorem Resolves.of_growth {spot : List String} (h : fs.Resolves depth opened place names q)
    (hgrowth : Growth spot fs after) : after.Resolves depth opened place names q := by
  induction h with
  | arrived => exact .arrived
  | up h ih => exact .up ih
  | down hup hentry hlink h ih =>
    obtain ⟨node', hentry', hlink'⟩ := hgrowth.entryAt hentry hlink
    exact .down hup hentry' hlink' ih
  | follow hup hentry hnew htarget h ihTarget ih =>
    exact .follow hup (hgrowth.entryAt_of_link hentry) hnew ihTarget ih

theorem Growth.resolveDepth_le {spot : List String} (h : Growth spot fs after) :
    fs.resolveDepth ≤ after.resolveDepth :=
  Nat.mul_le_mul_left _ (Nat.succ_le_succ h.tree.count)

theorem linkCount_le_resolveDepth (fs : FileSystem) : fs.root.linkCount ≤ fs.resolveDepth := by
  have hroom : 0 < maxPathBytes := by decide
  rw [resolveDepth]
  exact Nat.le_trans (Nat.le_succ _) (Nat.le_mul_of_pos_left _ hroom)

/-- Whether a file system comes from another one by nodes that are added and files that are
replaced, one after the other. -/
def Grown : FileSystem → FileSystem → Prop :=
  Relation.ReflTransGen fun fs after => ∃ spot, Growth spot fs after

theorem Growth.grown {spot : List String} (h : Growth spot fs after) : Grown fs after :=
  .single ⟨spot, h⟩

theorem grown_of_makeDirectories {p : Path} (h : fs.makeDirectories p = .ok after) :
    Grown fs after :=
  (growth_of_makeDirectories h []).grown

theorem grown_of_write {p : Path} {content : List UInt8} (h : fs.write p content = .ok after) :
    Grown fs after := by
  obtain ⟨spot, executable, rfl, hgrows, -⟩ := grows_of_write h
  exact Growth.grown ⟨hgrows, rfl⟩

theorem Grown.workingDirectory (h : Grown fs after) :
    after.workingDirectory = fs.workingDirectory := by
  induction h with
  | refl => rfl
  | tail h hstep ih =>
    obtain ⟨spot, hgrowth⟩ := hstep
    exact hgrowth.workingDirectory.trans ih

/-- A canonical path stays one. -/
theorem Direct.of_grown {p : Path} (hp : Direct fs p) (h : Grown fs after) : Direct after p := by
  induction h with
  | refl => exact hp
  | tail h hstep ih =>
    obtain ⟨spot, hgrowth⟩ := hstep
    exact ih.of_growth hgrowth

/-- Files grow in the same way below every working directory. -/
theorem Grown.within (h : Grown fs after) (directory : Option (List String)) :
    Grown { fs with workingDirectory := directory }
      { after with workingDirectory := directory } := by
  induction h with
  | refl => exact .refl
  | tail h hstep ih =>
    obtain ⟨spot, hgrowth⟩ := hstep
    exact ih.tail ⟨spot, hgrowth.tree, rfl⟩

/-- **Resolving in files that grow.** What a path was resolved to, it is resolved to. -/
theorem Grown.resolve {p : Path} (h : Grown fs after) (hresolve : fs.resolve p = .ok q) :
    after.resolve p = .ok q := by
  induction h with
  | refl => exact hresolve
  | tail h hstep ih =>
    obtain ⟨spot, hgrowth⟩ := hstep
    obtain ⟨reached, hreached, hq⟩ := resolve_eq_ok_iff.mp ih
    refine resolve_eq_ok_iff.mpr
      ⟨reached, (hreached.of_growth hgrowth).mono hgrowth.resolveDepth_le, ?_⟩
    rw [← hq, fromWorkingDirectory, fromWorkingDirectory, hgrowth.workingDirectory]

/-! ## Absolute paths -/

theorem anchor_above (p : Path) : (above p).anchor = p.anchor := by
  rw [above]
  split <;> split <;> rfl

theorem isAbsolute_above (p : Path) : (above p).isAbsolute = p.isAbsolute := by
  rw [Path.isAbsolute, anchor_above, Path.isAbsolute]

theorem isAbsolute_targetStart {p : Path} (h : p.isAbsolute = true) (target : String) :
    (targetStart p target).isAbsolute = true := by
  rw [targetStart]
  split
  · rfl
  · exact h

/-- An absolute path leads to the same node from every working directory. -/
theorem entryAt_of_isAbsolute {p : Path} (habsolute : p.isAbsolute = true)
    (hroot : after.root = fs.root) : after.entryAt p = fs.entryAt p := by
  obtain ⟨root, directory⟩ := fs
  obtain ⟨root', directory'⟩ := after
  obtain rfl : root' = root := hroot
  simp only [entryAt, status, arrivedAt, find, lookUp, start?, habsolute, if_true]

/-- From an absolute place, names are resolved in the same way from every working directory. -/
theorem Resolves.of_isAbsolute (h : fs.Resolves depth opened place names q)
    (habsolute : place.isAbsolute = true) (hroot : after.root = fs.root) :
    q.isAbsolute = true ∧ after.Resolves depth opened place names q := by
  have hentryAt {p : Path} {name : String} (hp : p.isAbsolute = true) :
      after.entryAt (p.child name) = fs.entryAt (p.child name) :=
    entryAt_of_isAbsolute (show (p.child name).isAbsolute = true from hp) hroot
  induction h with
  | arrived => exact ⟨habsolute, .arrived⟩
  | up h ih =>
    obtain ⟨hq, hrest⟩ := ih ((isAbsolute_above _).trans habsolute)
    exact ⟨hq, .up hrest⟩
  | down hup hentry hlink h ih =>
    obtain ⟨hq, hrest⟩ := ih habsolute
    exact ⟨hq, .down hup ((hentryAt habsolute).trans hentry) hlink hrest⟩
  | follow hup hentry hnew htarget h ihTarget ih =>
    obtain ⟨hreached, hgoal⟩ := ihTarget (isAbsolute_targetStart habsolute _)
    obtain ⟨hq, hrest⟩ := ih hreached
    exact ⟨hq, .follow hup ((hentryAt habsolute).trans hentry) hnew hgoal hrest⟩

/-- **Absolute paths.** What an absolute path is resolved to, it is resolved to from every working
directory. -/
theorem resolve_of_isAbsolute {p : Path} (habsolute : p.isAbsolute = true)
    (hroot : after.root = fs.root) (h : fs.resolve p = .ok q) : after.resolve p = .ok q := by
  obtain ⟨reached, hreached, rfl⟩ := resolve_eq_ok_iff.mp h
  have hstart := resolveStart_of_isAbsolute habsolute
  have hdepth : after.resolveDepth = fs.resolveDepth := by rw [resolveDepth, resolveDepth, hroot]
  obtain ⟨hanchor, hresolves⟩ := hreached.of_isAbsolute (hstart ▸ rfl) hroot
  refine resolve_eq_ok_iff.mpr ⟨reached, hdepth ▸ hresolves, ?_⟩
  rw [fromWorkingDirectory, fromWorkingDirectory, if_pos hanchor, if_pos hanchor]

end ElmSuite.FileSystem
