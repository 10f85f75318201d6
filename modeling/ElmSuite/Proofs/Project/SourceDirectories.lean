import ElmSuite.Proofs.Files.Overlong
import ElmSuite.Proofs.Project.GeneratedDirectory

/-!
# The source directories of a project

The source directories are told apart by their canonical paths, so that a directory is listed
once however it is spelled, and what is listed can be declared again.
-/

namespace ElmSuite.Project

open FileSystem

/-! ## Each once -/

section EachOnce

variable {α : Type} [DecidableEq α]

theorem nodup_eraseDups (items : List α) : items.eraseDups.Nodup := by
  induction hn : items.length using Nat.strongRecOn generalizing items with
  | ind n ih =>
    cases items with
    | nil => exact by simp
    | cons a items =>
      have hle := List.length_filter_le (fun b : α => !b == a) items
      rw [List.length_cons] at hn
      rw [List.eraseDups_cons, List.nodup_cons]
      exact ⟨by simp [List.mem_eraseDups], ih _ (by omega) _ rfl⟩

theorem eraseDups_of_nodup {items : List α} (h : items.Nodup) : items.eraseDups = items := by
  induction items with
  | nil => exact List.eraseDups_nil
  | cons a items ih =>
    obtain ⟨hnew, hrest⟩ := List.nodup_cons.mp h
    have hkept : items.filter (fun b => !b == a) = items := by
      refine List.filter_eq_self.mpr fun b hb => ?_
      rw [Bool.not_eq_true', beq_eq_false_iff_ne]
      exact fun heq => hnew (heq ▸ hb)
    rw [List.eraseDups_cons, hkept, ih hrest]

end EachOnce

/-! ## What is listed -/

variable {fs : FileSystem} {root : Path} {m : Manifest} {declared dirs : List Path} {dir : Path}

/-- The path by which the directory of the tests is listed. -/
inductive IsTestsPath (fs : FileSystem) (root : Path) : Path → Prop
  /-- That of the place at which the directory is found. -/
  | found {place : List String} (hreach : ¬Unresolvable fs (root.child testsDirectory))
    (hfind : fs.find (root.child testsDirectory) true = .ok (.found place)) :
    IsTestsPath fs root ⟨.root, place⟩
  /-- The one that comes nearest to it. -/
  | nearest (hlong : Unresolvable fs (root.child testsDirectory)) :
    IsTestsPath fs root (fs.resolved (root.child testsDirectory))

/-- The declared directories, each where it is first declared, and behind them that of the tests if it
is a directory and is not declared. -/
inductive WithTests (fs : FileSystem) (root : Path) (declared : List Path) : List Path → Prop
  | noTests (h : fs.isDir (root.child testsDirectory) = .ok false) :
    WithTests fs root declared declared.eraseDups
  | testsDeclared {dir : Path} (h : fs.isDir (root.child testsDirectory) = .ok true)
    (htests : IsTestsPath fs root dir) (hmem : dir ∈ declared) :
    WithTests fs root declared declared.eraseDups
  | testsLast {dir : Path} (h : fs.isDir (root.child testsDirectory) = .ok true)
    (htests : IsTestsPath fs root dir) (hnew : dir ∉ declared) :
    WithTests fs root declared (declared.eraseDups ++ [dir])

/-- Whether a path is that of a directory, and leads to it through no link. -/
def IsCanonical (fs : FileSystem) (dir : Path) : Prop := Direct fs dir ∧ fs.isDir dir = .ok true

/-- A canonical path of a directory is found where it says. -/
theorem IsCanonical.find (h : IsCanonical fs dir) :
    fs.find dir true = .ok (.found dir.names) ∧ ∃ es, fs.root.at? dir.names = some (.dir es) := by
  obtain ⟨-, place, es, hfind, hnode⟩ := isDir_eq_ok_true h.2
  obtain rfl := h.1.find_eq hfind
  exact ⟨hfind, es, hnode⟩

namespace WithTests

theorem nodup (h : WithTests fs root declared dirs) : dirs.Nodup := by
  cases h with
  | noTests | testsDeclared => exact nodup_eraseDups declared
  | testsLast _ _ hnew =>
    refine List.nodup_append.mpr ⟨nodup_eraseDups declared, by simp, ?_⟩
    rintro dir hdir dir' hdir' rfl
    exact hnew (List.mem_singleton.mp hdir' ▸ List.mem_eraseDups.mp hdir)

/-- What is listed, declared again, is listed as it is. -/
theorem again (h : WithTests fs root declared dirs) : WithTests fs root dirs dirs := by
  have hself := eraseDups_of_nodup h.nodup
  have hagain : WithTests fs root dirs dirs.eraseDups := by
    cases h with
    | noTests h => exact .noTests h
    | testsDeclared h htests hmem => exact .testsDeclared h htests (List.mem_eraseDups.mpr hmem)
    | testsLast h htests =>
      exact .testsDeclared h htests (List.mem_append_right _ (List.mem_singleton_self _))
  rwa [hself] at hagain

end WithTests

/-! ## What is resolved -/

theorem isAbsolute_resolved (fs : FileSystem) (p : Path) : (fs.resolved p).isAbsolute = true := by
  rw [resolved]
  split
  · next hresolve => exact isAbsolute_of_resolve hresolve
  · obtain ⟨names, hnear⟩ := fs.exists_approached_eq p
    rw [hnear]
    rfl

theorem IsTestsPath.isAbsolute (h : IsTestsPath fs root dir) : dir.isAbsolute = true := by
  cases h with
  | found => rfl
  | nearest => exact isAbsolute_resolved fs _

section Based

variable (hroot : Based fs root) (hnames : ∀ name ∈ root.names, Path.IsName name)

include hroot hnames

end Based

/-- A name of as many bytes as a name may have. -/
def wideName : String := String.ofList (List.replicate maxNameBytes 'w')

/-- A node below `depth` directories with the wide name. -/
def below (node : Node) : Nat → Node
  | 0 => node
  | depth + 1 => .dir [(wideName, below node depth)]

/-- The names of these directories. -/
def wideNames (depth : Nat) : List String := List.replicate depth wideName

theorem at?_below (node : Node) (depth : Nat) (rest : List String) :
    (below node depth).at? (wideNames depth ++ rest) = node.at? rest := by
  induction depth with
  | zero => rfl
  | succ depth ih =>
    rw [wideNames, List.replicate_succ, List.cons_append, ← wideNames, Node.at?_cons, Node.entry?,
      below, Node.entries, List.lookup_cons_self, Option.bind_some, ih]

section Wide

variable (node : Node)

end Wide

end ElmSuite.Project
