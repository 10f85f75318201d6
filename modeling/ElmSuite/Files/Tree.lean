/-!
# File trees

A file tree is made of files, directories and symbolic links. A node is found
by the names that lead to it from the root, no link being followed on the way.
-/

namespace ElmSuite

/-- A file, a symbolic link or a directory with its entries. -/
inductive Node where
  | file (content : List UInt8) (executable : Bool)
  | link (target : String)
  | dir (entries : List (String × Node))

namespace Node

/-- A directory without entries. -/
def empty : Node := dir []

/-- The entries of a directory; none for other nodes. -/
def entries : Node → List (String × Node)
  | dir es => es
  | _ => []

/-- The entry of a directory with this name. -/
def entry? (node : Node) (name : String) : Option Node := node.entries.lookup name

/-- The node that names lead to. -/
def at? : Node → List String → Option Node
  | node, [] => some node
  | node, name :: rest => (node.entry? name).bind fun child => child.at? rest

/-- Whether a node is a directory. -/
def isDir : Node → Bool
  | dir _ => true
  | _ => false

/-- Whether a node is a file. -/
def isFile : Node → Bool
  | file .. => true
  | _ => false

/-- Whether a node is a file that can be executed. -/
def isExecutable : Node → Bool
  | file _ executable => executable
  | _ => false

/-- Entries with one set, in its place if its name is there, else last. -/
def setEntry (name : String) (node : Node) : List (String × Node) → List (String × Node)
  | [] => [(name, node)]
  | (n, x) :: rest => if n = name then (n, node) :: rest else (n, x) :: setEntry name node rest

/-- A tree with `node` put where the names lead, directories being made on the way. -/
def put (tree : Node) (names : List String) (node : Node) : Node :=
  match names with
  | [] => node
  | name :: rest =>
    dir (setEntry name (put ((tree.entry? name).getD empty) rest node) tree.entries)

mutual

/-- All nodes below a node, each with the names that lead to it. Links are not followed. -/
def descendants : Node → List (List String × Node)
  | file .. => []
  | link _ => []
  | dir es => entryDescendants es

/-- All nodes at and below the entries of a directory. -/
def entryDescendants : List (String × Node) → List (List String × Node)
  | [] => []
  | (name, node) :: rest =>
    ([name], node) :: (descendants node).map (fun (names, x) => (name :: names, x)) ++ entryDescendants rest

end

/-- How many links there are below a node. -/
def linkCount (node : Node) : Nat :=
  (node.descendants.filter fun (_, x) => match x with | link _ => true | _ => false).length

@[simp] theorem at?_nil (node : Node) : node.at? [] = some node := by simp [at?]

/-- Names lead on from where the names before them lead to. -/
theorem at?_append (node : Node) (p q : List String) :
    node.at? (p ++ q) = (node.at? p).bind fun x => x.at? q := by
  induction p generalizing node with
  | nil => simp
  | cons name rest ih =>
    simp only [List.cons_append, at?]
    cases node.entry? name with
    | none => rfl
    | some child => exact ih child

theorem lookup_setEntry (name other : String) (node : Node) (es : List (String × Node)) :
    (setEntry name node es).lookup other = if other = name then some node else es.lookup other := by
  induction es with
  | nil => by_cases h : other = name <;> simp [setEntry, h]
  | cons e rest ih =>
    obtain ⟨n, x⟩ := e
    by_cases hn : n = name
    · subst hn
      by_cases h : other = n
      · simp [setEntry, h]
      · simp [setEntry, List.lookup_cons, h, beq_eq_false_iff_ne.2 h]
    · by_cases h : other = n
      · simp [setEntry, hn, h]
      · simp [setEntry, hn, List.lookup_cons, beq_eq_false_iff_ne.2 h, ih]

/-- What was put is found where it was put. -/
theorem at?_put (tree : Node) (p : List String) (node : Node) :
    (tree.put p node).at? p = some node := by
  induction p generalizing tree with
  | nil => simp [put]
  | cons name rest ih =>
    simp only [put, at?, entry?, entries, lookup_setEntry, if_true, Option.bind_some]
    exact ih _

end Node

end ElmSuite
