import ElmSuite.Header.Source
import ElmSuite.ModuleTable

/-!
# Building and scanning side by side

While the compiler builds the test files, each of them is scanned and the module
table is made. These tasks may complete in any order. The run goes on when all
have completed well, and wakes up early when one has failed. Of the tasks that
have failed by then a scan goes before any other, and among scans the file that
comes first.
-/

namespace ElmSuite

/-- A task to be done beside others. -/
inductive BuildTask where
  /-- To wait for the build. -/
  | build
  /-- To make the module table. -/
  | table
  /-- To scan a file. -/
  | scan (file : Path)
  deriving DecidableEq, Repr

/-- What the tasks come to. The module table cannot fail. -/
structure BuildOutcomes where
  build : Except Fault Unit
  scan : Path → Except Fault Exposing

namespace BuildOutcomes

/-- The fault of a task, if it has one. -/
def fault? (o : BuildOutcomes) : BuildTask → Option Fault
  | .table => none
  | .build => match o.build with
    | .ok _ => none
    | .error e => some e
  | .scan file => match o.scan file with
    | .ok _ => none
    | .error e => some e

/-- Whether a task failed. -/
def failed (o : BuildOutcomes) (t : BuildTask) : Bool := (o.fault? t).isSome

/-- The files that are scanned by some tasks and whose scan failed. -/
def failedScans (o : BuildOutcomes) (tasks : List BuildTask) : PathSet :=
  PathSet.ofList (tasks.filterMap fun t => match t with
    | .scan file => if o.failed t then some file else none
    | _ => none)

/-- The task whose fault counts among completed tasks. -/
def culprit? (o : BuildOutcomes) (completed : List BuildTask) : Option BuildTask :=
  match (o.failedScans completed).toList with
  | file :: _ => some (.scan file)
  | [] => completed.find? o.failed

end BuildOutcomes

/-- In which order tasks complete, and how many more have completed when the run wakes up. -/
structure Schedule where
  order : List Path → List BuildTask
  /-- Every task completes once. -/
  complete : ∀ files, (order files).Perm (.build :: .table :: files.map .scan)
  lag : Nat := 0

namespace Schedule

/-- The build completes first, then the module table, then the scans in the order of the files. -/
def buildFirst : Schedule where
  order files := .build :: .table :: files.map .scan
  complete _ := .refl _

/-- The build completes last. -/
def buildLast : Schedule where
  order files := .table :: files.map .scan ++ [.build]
  complete _ := List.perm_append_singleton ..

/-- The tasks that have completed when the run wakes up: all, or those up to the first that failed
and as many more as it takes to wake up. -/
def completed (s : Schedule) (o : BuildOutcomes) (files : List Path) : List BuildTask :=
  let order := s.order files
  let before := order.takeWhile (!o.failed ·)
  if before.length = order.length then order else order.take (before.length + 1 + s.lag)

end Schedule

end ElmSuite
