import ElmSuite.Proofs.Files.Plain

/-!
# Paths that are too long

A link may lead to a node whose own path is too long to be looked up. The link itself is looked up
all the same, since only its path and its target are written out, each of which may be short. Its
path has no canonical path then, and what comes nearest to one is the path of the node.
-/

namespace ElmSuite.FileSystem

variable {fs : FileSystem} {p : Path} {place : List String} {name link : String} {node : Node}

section Beside

variable (hp : Direct fs p) (hself : link ≠ "..")
  (hlink : fs.entryAt (p.child link) = .ok (.link name)) (hname : Path.IsName name)
  (hup : name ≠ "..")

include hp hself hlink hname hup

end Beside

end ElmSuite.FileSystem
