import ElmSuite.Proofs.Files.Canonical

/-!
# Trees without links

In a tree without links whose names are such as a file system allows, each node is found by the
names that lead to it, as long as the path is not too long. A path with `..` in it is resolved
to the names at which its lookup ends.
-/

namespace ElmSuite.FileSystem

/-! ## Names of entries -/

/-- A name that an entry of a directory may have. -/
structure IsEntryName (name : String) : Prop where
  isName : Path.IsName name
  ne_up : name ≠ ".."
  nul_not_mem : '\x00' ∉ name.toList
  short : name.utf8ByteSize ≤ maxNameBytes

instance (name : String) : Decidable (IsEntryName name) :=
  decidable_of_iff (name ≠ "" ∧ name ≠ "." ∧ '/' ∉ name.toList ∧ name ≠ ".." ∧
      '\x00' ∉ name.toList ∧ name.utf8ByteSize ≤ maxNameBytes)
    ⟨fun ⟨hempty, hdot, hslash, hup, hnul, hshort⟩ => ⟨⟨hempty, hdot, hslash⟩, hup, hnul, hshort⟩,
      fun h => ⟨h.isName.ne_empty, h.isName.ne_dot, h.isName.no_slash, h.ne_up, h.nul_not_mem,
        h.short⟩⟩

variable {root node : Node} {fs : FileSystem} {place names rest : List String}

/-- Names of entries are looked up one by one, down to the node that they lead to. -/
theorem stride_of_at? {follow : Bool} (hnames : ∀ name ∈ rest, IsEntryName name)
    (h : root.at? (place ++ rest) = some node)
    (hlink : follow = true → ∀ target, node ≠ .link target) :
    stride root follow place rest = .ok (.arrived (.found (place ++ rest))) := by
  induction rest generalizing place with
  | nil =>
    rw [List.append_nil]
    rfl
  | cons name rest ih =>
    obtain ⟨hname, hrest⟩ := List.forall_mem_cons.mp hnames
    obtain ⟨dir, hdir, hbelow⟩ := Option.bind_eq_some_iff.mp (root.at?_append place _ ▸ h)
    cases dir with
    | file | link =>
      rw [Node.at?_cons] at hbelow
      cases hbelow
    | dir es =>
      have happend : place ++ name :: rest = (place ++ [name]) ++ rest := by simp
      rw [happend] at h
      obtain ⟨child, hchild, hnode⟩ := Option.bind_eq_some_iff.mp (root.at?_append _ rest ▸ h)
      rw [stride_cons hdir, if_neg hname.isName.ne_dot, if_neg hname.ne_up,
        if_neg (Nat.not_lt.mpr hname.short), Node.outlineAt, hchild, happend]
      cases child with
      | file | dir => exact ih hrest h
      | link target =>
        cases rest with
        | nil =>
          obtain rfl := Option.some.inj (Node.at?_nil _ ▸ hnode)
          cases follow with
          | false => simp [Node.outline, strideInto]
          | true => exact absurd rfl (hlink rfl target)
        | cons below rest =>
          rw [Node.at?_cons] at hnode
          cases hnode

theorem hasNul_eq_false {p : Path} (h : ∀ name ∈ p.names, '\x00' ∉ name.toList) :
    hasNul p = false := by
  simpa [hasNul] using h

/-- A node is found by the names that lead to it. -/
theorem entryAt_of_at? (hnames : ∀ name ∈ names, IsEntryName name)
    (h : fs.root.at? names = some node)
    (hlength : (toString (⟨.root, names⟩ : Path)).utf8ByteSize ≤ maxPathBytes) :
    fs.entryAt ⟨.root, names⟩ = .ok node := by
  have hstride : stride fs.root false [] names = .ok (.arrived (.found names)) :=
    stride_of_at? hnames h (fun hfollow => by cases hfollow)
  exact entryAt_of_find (hasNul_eq_false fun name hname => (hnames name hname).nul_not_mem)
    (find_eq_ok_iff.mpr ⟨Nat.not_lt.mpr hlength, [], rfl, walk_of_arrived _ hstride⟩) h

/-- The path of the names that lead to a node is canonical, if the node is no link. -/
theorem direct_of_at? (hnames : ∀ name ∈ names, IsEntryName name)
    (h : fs.root.at? names = some node) (hlink : ∀ target, node ≠ .link target)
    (hlength : (toString (⟨.root, names⟩ : Path)).utf8ByteSize ≤ maxPathBytes) :
    Direct fs ⟨.root, names⟩ := by
  induction names using List.reverseRecOn generalizing node with
  | nil => exact .root
  | append_singleton front name ih =>
    obtain ⟨dir, hdir, hbelow⟩ := Option.bind_eq_some_iff.mp (fs.root.at?_append front _ ▸ h)
    have hfront : Direct fs ⟨.root, front⟩ := by
      refine ih (fun n hn => hnames n (List.mem_append_left _ hn)) hdir ?_
        (Nat.le_trans (Path.utf8ByteSize_le_append front [name]) hlength)
      rintro target rfl
      rw [Node.at?_cons] at hbelow
      cases hbelow
    have hname := hnames name (by simp)
    have hentry : fs.entryAt ((⟨.root, front⟩ : Path).child name) = .ok node :=
      entryAt_of_at? hnames h hlength
    exact hfront.child hname.isName hname.ne_up hentry hlink

/-! ## Plain trees -/

/-- A tree without links, in which the names of a directory are such as a file system allows and are
told apart. -/
structure Plain (root : Node) : Prop where
  noLink : ∀ place target, root.at? place ≠ some (.link target)
  isEntryName : ∀ place es, root.at? place = some (.dir es) → ∀ e ∈ es, IsEntryName e.1
  nodup : ∀ place es, root.at? place = some (.dir es) → (es.map Prod.fst).Nodup

namespace Plain

theorem of_at? (h : Plain root) (hnode : root.at? place = some node) : Plain node := by
  have hbelow (below : List String) : node.at? below = root.at? (place ++ below) := by
    rw [Node.at?_append, hnode, Option.bind_some]
  exact ⟨fun below target => hbelow below ▸ h.noLink _ target,
    fun below es hdir => h.isEntryName (place ++ below) es (hbelow below ▸ hdir),
    fun below es hdir => h.nodup (place ++ below) es (hbelow below ▸ hdir)⟩

theorem lookup_eq_some_iff {es : List (String × Node)} (hnodup : (es.map Prod.fst).Nodup)
    {name : String} : es.lookup name = some node ↔ (name, node) ∈ es := by
  induction es with
  | nil => simp
  | cons e es ih =>
    obtain ⟨n, x⟩ := e
    obtain ⟨hnew, hrest⟩ := List.nodup_cons.mp hnodup
    rw [List.lookup_cons, List.mem_cons, Prod.mk.injEq, ← ih hrest]
    by_cases hname : name = n
    · subst hname
      have hnone : es.lookup name ≠ some node := fun hsome =>
        hnew (List.mem_map.mpr ⟨_, (ih hrest).mp hsome, rfl⟩)
      simp [hnone, eq_comm]
    · simp [hname, beq_eq_false_iff_ne.mpr hname]

/-- All names on the way to a node are names of entries. -/
theorem isEntryName_of_at? (h : Plain root) (hnode : root.at? names = some node) :
    ∀ name ∈ names, IsEntryName name := by
  induction names generalizing root with
  | nil => exact nofun
  | cons name rest ih =>
    obtain ⟨child, hchild, hbelow⟩ := Option.bind_eq_some_iff.mp (root.at?_cons name rest ▸ hnode)
    cases root with
    | file | link => cases hchild
    | dir es =>
      have hentry : (name, child) ∈ es :=
        (lookup_eq_some_iff (h.nodup [] es (Node.at?_nil _))).mp hchild
      have hself : (Node.dir es).at? [name] = some child := by
        rw [Node.at?_cons, hchild, Option.bind_some, Node.at?_nil]
      exact List.forall_mem_cons.mpr
        ⟨h.isEntryName [] es (Node.at?_nil _) _ hentry, ih (h.of_at? hself) hbelow⟩

end Plain

/-- What names lead to is the root itself or is listed below it. -/
theorem mem_cons_descendants_of_at? (h : root.at? names = some node) :
    (names, node) ∈ ([], root) :: root.descendants := by
  by_cases hne : names = []
  · subst hne
    rw [Node.at?_nil] at h
    exact Option.some.inj h ▸ List.mem_cons_self ..
  · exact List.mem_cons_of_mem _ (Node.mem_descendants_of_at? hne h)

theorem mem_entryDescendants_iff {es : List (String × Node)} :
    (names, node) ∈ Node.entryDescendants es ↔
      ∃ e ∈ es, ∃ rest, names = e.1 :: rest ∧
        (rest = [] ∧ node = e.2 ∨ (rest, node) ∈ e.2.descendants) := by
  induction es with
  | nil => simp [Node.entryDescendants]
  | cons e es ih =>
    obtain ⟨n, x⟩ := e
    rw [Node.entryDescendants, List.mem_append, List.mem_cons, ih]
    constructor
    · rintro ((heq | hbelow) | ⟨e, he, hrest⟩)
      · obtain ⟨rfl, rfl⟩ := Prod.mk.inj heq
        exact ⟨(n, node), List.mem_cons_self .., [], rfl, .inl ⟨rfl, rfl⟩⟩
      · obtain ⟨⟨rest, node'⟩, hmem, heq⟩ := List.mem_map.mp hbelow
        obtain ⟨rfl, rfl⟩ := Prod.mk.inj heq
        exact ⟨(n, x), List.mem_cons_self .., rest, rfl, .inr hmem⟩
      · exact ⟨e, List.mem_cons_of_mem _ he, hrest⟩
    · rintro ⟨e, he, rest, rfl, hrest⟩
      rcases List.mem_cons.mp he with rfl | he
      · rcases hrest with ⟨rfl, rfl⟩ | hmem
        · exact .inl (.inl rfl)
        · exact .inl (.inr (List.mem_map.mpr ⟨_, hmem, rfl⟩))
      · exact .inr ⟨e, he, rest, rfl, hrest⟩

/-- The nodes below a plain tree are listed with the names that lead to them. -/
theorem Plain.mem_descendants_iff (h : Plain root) :
    (names, node) ∈ root.descendants ↔ names ≠ [] ∧ root.at? names = some node := by
  refine ⟨fun hmem => ?_, fun ⟨hne, hnode⟩ => Node.mem_descendants_of_at? hne hnode⟩
  induction names generalizing root with
  | nil =>
    cases root with
    | file | link => rw [Node.descendants] at hmem; cases hmem
    | dir es =>
      rw [Node.descendants, mem_entryDescendants_iff] at hmem
      obtain ⟨e, -, rest, heq, -⟩ := hmem
      cases heq
  | cons name rest ih =>
    cases root with
    | file | link => rw [Node.descendants] at hmem; cases hmem
    | dir es =>
      rw [Node.descendants, mem_entryDescendants_iff] at hmem
      obtain ⟨⟨n, x⟩, he, rest', heq, hbelow⟩ := hmem
      obtain ⟨rfl, rfl⟩ := List.cons.inj heq
      have hlookup : Node.entry? (.dir es) name = some x :=
        (lookup_eq_some_iff (h.nodup [] es (Node.at?_nil _))).mpr he
      have hself : (Node.dir es).at? [name] = some x := by
        rw [Node.at?_cons, hlookup, Option.bind_some, Node.at?_nil]
      refine ⟨by simp, ?_⟩
      rw [Node.at?_cons, hlookup, Option.bind_some]
      rcases hbelow with ⟨rfl, rfl⟩ | hmem
      · exact Node.at?_nil _
      · exact (ih (h.of_at? hself) hmem).2

/-! ## Lookups in plain trees -/

section Lookups

/-- What the first name of a lookup that ends at a node without following links does. -/
theorem stride_found_cases {name : String} {q : List String}
    (h : stride root true place (name :: rest) = .ok (.arrived (.found q))) :
    ∃ es, root.at? place = some (.dir es) ∧
      (name = "." ∧ stride root true place rest = .ok (.arrived (.found q)) ∨
        name = ".." ∧ stride root true place.dropLast rest = .ok (.arrived (.found q)) ∨
        (name ≠ "." ∧ name ≠ ".." ∧ ¬maxNameBytes < name.utf8ByteSize) ∧
          ∃ node, root.at? (place ++ [name]) = some node ∧ (∀ target, node ≠ .link target) ∧
            stride root true (place ++ [name]) rest = .ok (.arrived (.found q))) := by
  obtain ⟨es, hdir⟩ := exists_dir_of_stride_cons h
  refine ⟨es, hdir, ?_⟩
  rw [stride_cons hdir] at h
  split_ifs at h with hself hup hlong
  · exact .inl ⟨hself, h⟩
  · exact .inr (.inl ⟨hup, h⟩)
  · refine .inr (.inr ⟨⟨hself, hup, hlong⟩, ?_⟩)
    rw [Node.outlineAt] at h
    cases hnode : root.at? (place ++ [name]) with
    | none =>
      rw [hnode, Option.map_none, strideInto] at h
      split_ifs at h
      cases h
    | some node =>
      rw [hnode] at h
      cases node with
      | file | dir => exact ⟨_, rfl, (fun target heq => by cases heq), h⟩
      | link target => simp [Node.outline, strideInto] at h

/-- Where a lookup without links has come to, a longer one goes on. -/
theorem stride_append_of_found {follow : Bool} {start middle front : List String}
    (h : stride root true start front = .ok (.arrived (.found middle))) :
    stride root follow start (front ++ rest) = stride root follow middle rest := by
  induction front generalizing start with
  | nil =>
    obtain rfl : start = middle := by cases h; rfl
    rfl
  | cons name front ih =>
    rw [List.cons_append]
    obtain ⟨es, hdir, ⟨hself, h⟩ | ⟨hup, h⟩ | ⟨⟨hself, hup, hlong⟩, node, hnode, hlink, h⟩⟩ :=
      stride_found_cases h
    · rw [stride_cons hdir, if_pos hself, ih h]
    · rw [stride_cons hdir, if_neg (hup ▸ by decide), if_pos hup, ih h]
    · rw [stride_cons_of_node hdir hself hup hlong hnode hlink, ih h]

/-- A lookup in a plain tree meets no link. -/
theorem Plain.stride_ne_atLink (h : Plain root) {follow : Bool} {above : List String}
    {target : String} : stride root follow place names ≠ .ok (.atLink above target rest) := by
  intro hstride
  induction names generalizing place with
  | nil => cases hstride
  | cons name names ih =>
    obtain ⟨es, hdir⟩ := exists_dir_of_stride_cons hstride
    rw [stride_cons hdir] at hstride
    split_ifs at hstride
    · exact ih hstride
    · exact ih hstride
    · cases hnode : root.outlineAt (place ++ [name]) with
      | none =>
        rw [hnode, strideInto] at hstride
        split_ifs at hstride
        cases hstride
      | some seen =>
        rw [hnode] at hstride
        cases seen with
        | file | dir => exact ih hstride
        | link other => exact h.noLink _ _ (outlineAt_eq_link_iff.mp hnode)

variable {p : Path} {below : List String}

/-- How a path is looked up in a plain tree. -/
theorem Plain.stride_of_find (h : Plain fs.root) {a : Arrival} (hfind : fs.find p true = .ok a) :
    ∃ start, fs.start? p.isAbsolute = some start ∧
      stride fs.root true start p.names = .ok (.arrived a) := by
  obtain ⟨-, start, hstart, hwalk⟩ := find_eq_ok_iff.mp hfind
  rcases walk_eq_ok hwalk with hstride | ⟨_, _, _, _, -, hstride, -⟩
  · exact ⟨start, hstart, hstride⟩
  · exact absurd hstride h.stride_ne_atLink

/-- The path of a node below the directory that a path leads to. -/
def pathBelow (p : Path) (below : List String) : Path := ⟨p.anchor, p.names ++ below⟩

/-- Whether a path is too long to be looked up. -/
def TooLong (p : Path) : Prop := maxPathBytes < (toString p).utf8ByteSize

instance (p : Path) : Decidable (TooLong p) := inferInstanceAs (Decidable (_ < _))

theorem not_tooLong_of_find {follow : Bool} {a : Arrival} (hfind : fs.find p follow = .ok a) :
    ¬TooLong p :=
  (find_eq_ok_iff.mp hfind).1

/-- A node below the place where a path leads is found there, unless its path is too long. -/
theorem Plain.find_below (h : Plain fs.root) (hfind : fs.find p true = .ok (.found place))
    (hnode : fs.root.at? (place ++ below) = some node) (follow : Bool) :
    fs.find (pathBelow p below) follow =
      if TooLong (pathBelow p below) then .error .nameTooLong else .ok (.found (place ++ below)) := by
  obtain ⟨start, hstart, hstride⟩ := h.stride_of_find hfind
  have hnames : ∀ name ∈ below, IsEntryName name := fun name hname =>
    h.isEntryName_of_at? hnode name (List.mem_append_right _ hname)
  have hbelow : stride fs.root follow start (p.names ++ below) =
      .ok (.arrived (.found (place ++ below))) := by
    rw [stride_append_of_found hstride]
    refine stride_of_at? hnames hnode fun _ target heq => h.noLink (place ++ below) target ?_
    rw [hnode, heq]
  have hstart' : fs.start? (pathBelow p below).isAbsolute = some start := hstart
  rw [find, lookUp, hstart']
  exact if_congr Iff.rfl rfl (walk_of_arrived _ hbelow)

theorem hasNul_child {p : Path} {name : String} (hp : hasNul p = false)
    (hname : '\x00' ∉ name.toList) : hasNul (p.child name) = false := by
  simp only [hasNul, Path.child, List.any_append, Bool.or_eq_false_iff] at hp ⊢
  exact ⟨hp, by simpa using hname⟩

theorem hasNul_pathBelow (hnul : hasNul p = false) (hnames : ∀ name ∈ below, IsEntryName name) :
    hasNul (pathBelow p below) = false := by
  refine hasNul_eq_false fun name hname => ?_
  rcases List.mem_append.mp hname with hname | hname
  · simp only [hasNul, List.any_eq_false, List.contains_eq_mem, decide_eq_true_eq] at hnul
    exact hnul name hname
  · exact (hnames name hname).nul_not_mem

/-- What is told of a node below the place where a path leads. -/
theorem Plain.leadsTo_below (h : Plain fs.root) (hnul : hasNul p = false)
    (hfind : fs.find p true = .ok (.found place))
    (hnode : fs.root.at? (place ++ below) = some node) (kind : Node → Bool) :
    fs.leadsTo kind (pathBelow p below) =
      if TooLong (pathBelow p below) then .error ⟨.nameTooLong, toString (pathBelow p below)⟩
      else .ok (kind node) := by
  have hnames : ∀ name ∈ below, IsEntryName name := fun name hname =>
    h.isEntryName_of_at? hnode name (List.mem_append_right _ hname)
  rw [leadsTo, hasNul_pathBelow hnul hnames, if_neg (by decide), status,
    h.find_below hfind hnode]
  split_ifs
  · rfl
  · rw [arrivedAt, hnode]

end Lookups

/-! ## The length of paths -/

/-- How many bytes names take in an absolute path, each with the slash before it. -/
def width : List String → Nat
  | [] => 0
  | name :: rest => name.utf8ByteSize + 1 + width rest

@[simp] theorem width_nil : width [] = 0 := rfl

@[simp] theorem width_cons (name : String) :
    width (name :: rest) = name.utf8ByteSize + 1 + width rest := rfl

@[simp] theorem width_append (front : List String) :
    width (front ++ rest) = width front + width rest := by
  induction front with
  | nil => simp
  | cons name front ih =>
    rw [List.cons_append, width_cons, width_cons, ih]
    omega

theorem utf8ByteSize_intercalate (name : String) (rest : List String) :
    (String.intercalate "/" (name :: rest)).utf8ByteSize + 1 = width (name :: rest) := by
  induction rest generalizing name with
  | nil => simp
  | cons next rest ih =>
    have hslash : "/".utf8ByteSize = 1 := by decide
    have hrest := ih next
    rw [String.intercalate_cons_cons, String.utf8ByteSize_append, String.utf8ByteSize_append,
      width_cons]
    omega

/-- The text of a path takes as many bytes as its anchor and its names, the first of which has a slash
before it only if the anchor has none. -/
theorem utf8ByteSize_path (anchor : Anchor) (name : String) (rest : List String) :
    (toString (⟨anchor, name :: rest⟩ : Path)).utf8ByteSize + 1 =
      anchor.text.utf8ByteSize + width (name :: rest) := by
  have htext : toString (⟨anchor, name :: rest⟩ : Path) =
      anchor.text ++ String.intercalate "/" (name :: rest) := by
    change Path.toString _ = _
    rw [Path.toString, if_neg (by simp)]
  rw [htext, String.utf8ByteSize_append, Nat.add_assoc, utf8ByteSize_intercalate]

/-- An absolute path takes as many bytes as its names, and one for the root itself. -/
theorem utf8ByteSize_root (names : List String) :
    (toString (⟨.root, names⟩ : Path)).utf8ByteSize = max 1 (width names) := by
  cases names with
  | nil => decide
  | cons name rest =>
    have hslash : Anchor.root.text.utf8ByteSize = 1 := by decide
    have hpath := utf8ByteSize_path .root name rest
    rw [width_cons] at hpath ⊢
    omega

/-- How many bytes the names below an anchor may take in a path that is looked up. -/
def room (anchor : Anchor) : Nat := maxPathBytes + 1 - anchor.text.utf8ByteSize

theorem not_tooLong_iff {p : Path} : ¬TooLong p ↔ width p.names ≤ room p.anchor := by
  obtain ⟨anchor, names⟩ := p
  cases names with
  | nil => exact iff_of_true (by cases anchor <;> decide) (Nat.zero_le _)
  | cons name rest =>
    have hpath := utf8ByteSize_path anchor name rest
    have hanchor : anchor.text.utf8ByteSize ≤ maxPathBytes := by cases anchor <;> decide
    rw [TooLong, room]
    dsimp only
    omega

end ElmSuite.FileSystem
