import ElmSuite.Proofs.Files.Spelled

/-!
# The canonical path of what a lookup finds

A lookup puts the names of a target in front of those that it has left, and only counts the
links that it follows. Resolving a path goes through a target by itself and gives up at a link
that it meets inside itself. That does not happen to a path whose lookup ends somewhere: going
through the target of a link takes fewer links than going through the link, and how many it
takes depends on nothing but the link. So the canonical path of what a lookup finds is the path
of the names at which the lookup ends.
-/

namespace ElmSuite.FileSystem

variable {root : Node} {fs : FileSystem} {place names rest q : List String} {n : Nat}

/-! ## Ways through a tree -/

/-- Where the target of a link in a directory is looked up from. -/
def targetPlace (place : List String) (target : String) : List String :=
  if (Path.ofString target).isAbsolute then [] else place

/-- Names lead from a place to another one, following a number of links, those inside targets
included. The target of a link is gone through by itself, and then the names behind the link. -/
inductive Walks (root : Node) : List String → List String → Nat → List String → Prop
  | arrived {place : List String} : Walks root place [] 0 place
  | self {place rest q : List String} {n : Nat} {name : String} {es : List (String × Node)}
    (hself : name = ".") (hdir : root.at? place = some (.dir es)) (h : Walks root place rest n q) :
    Walks root place (name :: rest) n q
  | up {place rest q : List String} {n : Nat} {name : String} {es : List (String × Node)}
    (hup : name = "..") (hdir : root.at? place = some (.dir es))
    (h : Walks root place.dropLast rest n q) : Walks root place (name :: rest) n q
  | down {place rest q : List String} {n : Nat} {name : String} {node : Node} (hself : name ≠ ".")
    (hup : name ≠ "..") (hnode : root.at? (place ++ [name]) = some node)
    (hlink : ∀ target, node ≠ .link target) (h : Walks root (place ++ [name]) rest n q) :
    Walks root place (name :: rest) n q
  | follow {place rest reached q : List String} {m n : Nat} {name target : String}
    (hself : name ≠ ".") (hup : name ≠ "..")
    (hnode : root.at? (place ++ [name]) = some (.link target))
    (htarget : Walks root (targetPlace place target) (writtenNames target) m reached)
    (h : Walks root reached rest n q) : Walks root place (name :: rest) (m + 1 + n) q

/-- A way is told by where it starts and its names. -/
theorem Walks.unique {n' : Nat} {q' : List String} (h : Walks root place names n q)
    (h' : Walks root place names n' q') : n = n' ∧ q = q' := by
  induction h generalizing n' q' with
  | arrived =>
    cases h'
    exact ⟨rfl, rfl⟩
  | self hself hdir h ih =>
    cases h' with
    | self _ _ h' => exact ih h'
    | up hup => exact absurd (hself.symm.trans hup) (by decide)
    | down hself' | follow hself' => exact absurd hself hself'
  | up hup hdir h ih =>
    cases h' with
    | self hself => exact absurd (hup.symm.trans hself) (by decide)
    | up _ _ h' => exact ih h'
    | down _ hup' | follow _ hup' => exact absurd hup hup'
  | down hself hup hnode hlink h ih =>
    cases h' with
    | self hself' => exact absurd hself' hself
    | up hup' => exact absurd hup' hup
    | down _ _ _ _ h' => exact ih h'
    | follow _ _ hnode' => exact absurd (Option.some.inj (hnode.symm.trans hnode')) (hlink _)
  | follow hself hup hnode htarget h ihTarget ih =>
    cases h' with
    | self hself' => exact absurd hself' hself
    | up hup' => exact absurd hup' hup
    | down _ _ hnode' hlink' => exact absurd (Option.some.inj (hnode'.symm.trans hnode)) (hlink' _)
    | follow _ _ hnode' htarget' h' =>
      obtain rfl := Node.link.inj (Option.some.inj (hnode.symm.trans hnode'))
      obtain ⟨rfl, rfl⟩ := ihTarget htarget'
      obtain ⟨rfl, rfl⟩ := ih h'
      exact ⟨rfl, rfl⟩

/-- A way can be cut in two. -/
theorem Walks.exists_of_append (h : Walks root place (names ++ rest) n q) :
    ∃ m k middle, Walks root place names m middle ∧ Walks root middle rest k q ∧ n = m + k := by
  induction names generalizing place n with
  | nil => exact ⟨0, n, place, .arrived, h, (Nat.zero_add n).symm⟩
  | cons name names ih =>
    cases h with
    | self hself hdir h =>
      obtain ⟨m, k, middle, hfront, hback, rfl⟩ := ih h
      exact ⟨m, k, middle, .self hself hdir hfront, hback, rfl⟩
    | up hup hdir h =>
      obtain ⟨m, k, middle, hfront, hback, rfl⟩ := ih h
      exact ⟨m, k, middle, .up hup hdir hfront, hback, rfl⟩
    | down hself hup hnode hlink h =>
      obtain ⟨m, k, middle, hfront, hback, rfl⟩ := ih h
      exact ⟨m, k, middle, .down hself hup hnode hlink hfront, hback, rfl⟩
    | follow hself hup hnode htarget h =>
      obtain ⟨m, k, middle, hfront, hback, rfl⟩ := ih h
      exact ⟨_, k, middle, .follow hself hup hnode htarget hfront, hback, by omega⟩

/-- Where one gets from where a stride ended, the link there being followed. -/
inductive LeadsOn (root : Node) : Stride → Nat → List String → Prop
  | arrived {q : List String} : LeadsOn root (.arrived (.found q)) 0 q
  | atLink {above rest q : List String} {target : String} {n : Nat}
    (h : Walks root (targetPlace above target) (writtenNames target ++ rest) n q) :
    LeadsOn root (.atLink above target rest) (n + 1) q

theorem walks_of_stride {s : Stride} (h : stride root true place names = .ok s)
    (hs : LeadsOn root s n q) : Walks root place names n q := by
  induction names generalizing place with
  | nil =>
    obtain rfl := Except.ok.inj h
    cases hs
    exact .arrived
  | cons name rest ih =>
    obtain ⟨es, hdir⟩ := exists_dir_of_stride_cons h
    rw [stride_cons hdir] at h
    split_ifs at h with hself hup hlong
    · exact .self hself hdir (ih h)
    · exact .up hup hdir (ih h)
    · cases hnode : root.at? (place ++ [name]) with
      | none =>
        simp only [Node.outlineAt, hnode, Option.map_none, strideInto] at h
        split_ifs at h
        · obtain rfl := Except.ok.inj h
          cases hs
      | some node =>
        simp only [Node.outlineAt, hnode, Option.map_some] at h
        cases node with
        | file | dir =>
          exact .down hself hup hnode (fun target hlink => by cases hlink) (ih h)
        | link target =>
          simp only [Node.outline, strideInto, Bool.not_true, Bool.false_eq_true, and_false,
            if_false, Except.ok.injEq] at h
          subst h
          cases hs with
          | atLink hs =>
            obtain ⟨m, k, reached, htarget, hrest, rfl⟩ := hs.exists_of_append
            rw [show m + k + 1 = m + 1 + k by omega]
            exact .follow hself hup hnode htarget hrest

/-- A lookup that finds a place is a way to it. -/
theorem walks_of_walk {links : Nat} (h : walk root true links place names = .ok (.found q)) :
    ∃ n, Walks root place names n q := by
  induction links generalizing place names with
  | zero =>
    rcases walk_eq_ok h with h | ⟨left, _, _, _, hleft, -⟩
    · exact ⟨0, walks_of_stride h .arrived⟩
    · cases hleft
  | succ links ih =>
    rcases walk_eq_ok h with h | ⟨left, above, target, rest, hleft, hstride, h⟩
    · exact ⟨0, walks_of_stride h .arrived⟩
    · obtain rfl := Nat.succ.inj hleft
      obtain ⟨n, hn⟩ := ih h
      exact ⟨n + 1, walks_of_stride hstride (.atLink hn)⟩

/-! ## Links inside links -/

/-- Whether there is a link at a place whose target takes `m` links to go through. -/
def LinkAt (root : Node) (m : Nat) (place : List String) : Prop :=
  ∃ above name target reached, place = above ++ [name] ∧ root.at? place = some (.link target) ∧
    Walks root (targetPlace above target) (writtenNames target) m reached

theorem LinkAt.unique {m m' : Nat} (h : LinkAt root m place) (h' : LinkAt root m' place) :
    m = m' := by
  obtain ⟨above, name, target, reached, rfl, hnode, htarget⟩ := h
  obtain ⟨above', name', target', reached', hplace, hnode', htarget'⟩ := h'
  obtain ⟨rfl, -⟩ := List.append_inj' hplace rfl
  obtain rfl := Node.link.inj (Option.some.inj (hnode.symm.trans hnode'))
  exact (htarget.unique htarget').1

/-- Links one of which was met inside the target of the next, on a way on which at most `n` links are
left to follow. Going through the target of each takes fewer links than through that of the next. -/
inductive Nested (fs : FileSystem) : Nat → List Path → Prop
  | nil {n : Nat} : Nested fs n []
  | cons {n m : Nat} {link : Path} {opened : List Path}
    (hlink : LinkAt fs.root m (fs.placeOf link)) (hle : n ≤ m) (h : Nested fs (m + 1) opened) :
    Nested fs n (link :: opened)

namespace Nested

variable {opened : List Path} {link : Path} {m : Nat}

theorem mono (h : Nested fs n opened) (hle : m ≤ n) : Nested fs m opened := by
  cases h with
  | nil => exact .nil
  | cons hlink hn h => exact .cons hlink (Nat.le_trans hle hn) h

theorem exists_of_mem (h : Nested fs n opened) (hmem : link ∈ opened) :
    ∃ m, n ≤ m ∧ LinkAt fs.root m (fs.placeOf link) := by
  induction h with
  | nil => cases hmem
  | @cons n m link' opened hlink hle h ih =>
    rcases List.mem_cons.mp hmem with rfl | hmem
    · exact ⟨m, hle, hlink⟩
    · obtain ⟨k, hk, hlinkAt⟩ := ih hmem
      exact ⟨k, by omega, hlinkAt⟩

/-- A link whose target takes fewer links to go through is none of those that were met. -/
theorem place_not_mem (h : Nested fs n opened) (hlink : LinkAt fs.root m (fs.placeOf link))
    (hlt : m < n) : fs.placeOf link ∉ opened.map fs.placeOf := by
  intro hmem
  obtain ⟨link', hmem', hplace⟩ := List.mem_map.mp hmem
  obtain ⟨k, hk, hlink'⟩ := h.exists_of_mem hmem'
  obtain rfl := hlink.unique (hplace ▸ hlink')
  omega

/-- There are no more links inside each other than links. -/
theorem length_le (h : Nested fs n opened) : opened.length ≤ fs.root.linkCount := by
  have hnodup : (opened.map fs.placeOf).Nodup := by
    induction h with
    | nil => exact List.nodup_nil
    | cons hlink hle h ih =>
      exact List.nodup_cons.mpr ⟨h.place_not_mem hlink (Nat.lt_succ_self _), ih⟩
  rw [← List.length_map fs.placeOf]
  refine Node.length_le_linkCount hnodup fun place hmem => ?_
  obtain ⟨link, hlink, rfl⟩ := List.mem_map.mp hmem
  obtain ⟨-, -, above, name, target, -, hplace, hnode, -⟩ := h.exists_of_mem hlink
  exact ⟨by simp [hplace], target, hnode⟩

end Nested

/-! ## Ways are resolved -/

/-- The names of a target, but for the name `.`, are those of the path that it is read as. -/
theorem filter_writtenNames (target : String) :
    (writtenNames target).filter (· ≠ ".") = (Path.ofString target).names := by
  have hnames : ((splitString '/' target).filter (· ≠ "")).filter (· ≠ ".") =
      Path.namesOf target := by
    rw [List.filter_filter, Path.namesOf]
    congr 1
    funext name
    rw [Bool.decide_and, Bool.and_comm]
  rw [writtenNames]
  split
  · rw [List.filter_append, hnames]
    simp [Path.ofString]
  · exact hnames

theorem isName_of_mem_writtenNames {target name : String} (h : name ∈ writtenNames target)
    (hself : name ≠ ".") : Path.IsName name := by
  have hmem : name ∈ (writtenNames target).filter (· ≠ ".") :=
    List.mem_filter.mpr ⟨h, decide_eq_true hself⟩
  rw [filter_writtenNames] at hmem
  exact Path.isName_of_mem_ofString hmem

/-- What resolving a way from a spelled path to a place ends in: the place is reached, or a node on
the way is not found by what it is spelled. -/
inductive Settles (fs : FileSystem) (p : Path) (q : List String) : Except Fault Path → Prop
  | reached {r : Path} (h : Spelled fs r) (hq : fs.placeOf r = q)
      (habsolute : p.isAbsolute = true → r.isAbsolute = true) : Settles fs p q (.ok r)
  | unspellable {r : Path} {name : String} {node : Node} {e : Fault} (h : Spelled fs r)
      (habsolute : p.isAbsolute = true → r.isAbsolute = true)
      (hnode : fs.root.at? (fs.placeOf r ++ [name]) = some node)
      (hentry : fs.entryAt (r.child name) = .error e) (he : Unspellable e) :
      Settles fs p q (.error e)

theorem Settles.of_start {p start : Path} {r : Except Fault Path} (h : Settles fs start q r)
    (hstart : p.isAbsolute = true → start.isAbsolute = true) : Settles fs p q r := by
  cases h with
  | reached h hq habsolute => exact .reached h hq fun hp => habsolute (hstart hp)
  | unspellable h habsolute hnode hentry he =>
    exact .unspellable h (fun hp => habsolute (hstart hp)) hnode hentry he

theorem placeOf_targetStart {p : Path} (target : String) :
    fs.placeOf (FileSystem.targetStart p target) = targetPlace (fs.placeOf p) target := by
  rw [FileSystem.targetStart, targetPlace]
  split <;> rfl

/-- **Ways are resolved.** Names that lead from a place to another one are resolved to a path that
spells it, if nothing on the way is too long to be looked up as it is spelled. -/
theorem Walks.settles (h : Walks fs.root place names n q)
    (hnames : ∀ name ∈ names, name ≠ "." → Path.IsName name) {p : Path} (hp : Spelled fs p)
    (hplace : fs.placeOf p = place) {opened : List Path} (hopened : Nested fs n opened) {depth : Nat}
    (hdepth : fs.root.linkCount ≤ depth + opened.length) :
    Settles fs p q (fs.resolveWithin depth opened p (names.filter (· ≠ "."))) := by
  -- The links that are left to follow keep the opened links off the way.
  induction h generalizing p opened depth with
  | arrived =>
    rw [resolveWithin_eq]
    exact .reached hp hplace id
  | self hself hdir h ih =>
    rw [List.filter_cons_of_neg (by simp [hself])]
    exact ih (List.forall_mem_cons.mp hnames).2 hp hplace hopened hdepth
  | up hup hdir h ih =>
    subst hup
    rw [List.filter_cons_of_pos (by decide), resolveWithin_up]
    obtain ⟨habove, hdropLast⟩ := hp.above
    exact (ih (List.forall_mem_cons.mp hnames).2 habove (hplace ▸ hdropLast) hopened hdepth).of_start
      fun habsolute => isAbsolute_above p ▸ habsolute
  | @down place rest q n name node hself hup hnode hlink h ih =>
    obtain ⟨hname, hrest⟩ := List.forall_mem_cons.mp hnames
    rw [List.filter_cons_of_pos (by simp [hself])]
    subst hplace
    rcases hp.entryAt_child (hname hself) hup hnode with hentry | ⟨e, hentry, he⟩
    · rw [resolveWithin_down hup hentry hlink]
      exact (ih hrest (hp.child (hname hself) hup hentry hlink) (placeOf_child hup) hopened
        hdepth).of_start id
    · rw [resolveWithin_refused hup hentry]
      exact .unspellable hp id hnode hentry he
  | @follow place rest reached q m n name target hself hup hnode htarget h ihTarget ih =>
    obtain ⟨hname, hrest⟩ := List.forall_mem_cons.mp hnames
    rw [List.filter_cons_of_pos (by simp [hself])]
    subst hplace
    rcases hp.entryAt_child (hname hself) hup hnode with hentry | ⟨e, hentry, he⟩
    · have hlink : LinkAt fs.root m (fs.placeOf (p.child name)) := by
        rw [placeOf_child hup]
        exact ⟨_, name, target, reached, rfl, hnode, htarget⟩
      have hnew : p.child name ∉ opened := fun hmem =>
        hopened.place_not_mem hlink (by omega) (List.mem_map_of_mem hmem)
      have hinside : Nested fs m (p.child name :: opened) :=
        .cons hlink (Nat.le_refl m) (hopened.mono (by omega))
      have hroom := hinside.length_le
      rw [List.length_cons] at hroom
      obtain ⟨depth, rfl⟩ := Nat.exists_eq_succ_of_ne_zero (show depth ≠ 0 by omega)
      have hdepth' : fs.root.linkCount ≤ depth + (p.child name :: opened).length := by
        rw [List.length_cons]
        omega
      have hgoal := ihTarget (fun _ => isName_of_mem_writtenNames) (hp.targetStart target)
        (placeOf_targetStart target) hinside hdepth'
      rw [filter_writtenNames] at hgoal
      have hstart : p.isAbsolute = true → (targetStart p target).isAbsolute = true :=
        fun habsolute => isAbsolute_targetStart habsolute target
      rw [resolveWithin_follow hup hentry hnew]
      generalize fs.resolveWithin depth (p.child name :: opened) _ _ = r at hgoal ⊢
      cases hgoal with
      | unspellable h habsolute hnode hentry he =>
        exact (Settles.unspellable h habsolute hnode hentry he).of_start hstart
      | reached hspelled hreached habsolute =>
        exact (ih hrest hspelled hreached (hopened.mono (by omega)) hdepth).of_start
          fun hp => habsolute (hstart hp)
    · rw [resolveWithin_refused hup hentry]
      exact .unspellable hp id hnode hentry he

/-! ## What is found is resolved -/

theorem filter_of_isName (h : ∀ name ∈ names, Path.IsName name) : names.filter (· ≠ ".") = names :=
  List.filter_eq_self.mpr fun name hname => decide_eq_true (h name hname).ne_dot

/-- Names that lead from where a path starts to a place are resolved. -/
theorem Walks.settles_path {p : Path} (h : Walks fs.root place p.names n q)
    (hnames : ∀ name ∈ p.names, Path.IsName name) (hstart : Spelled fs (resolveStart p))
    (hplace : fs.placeOf (resolveStart p) = place) :
    Settles fs (resolveStart p) q
      (fs.resolveWithin fs.resolveDepth [] (resolveStart p) p.names) := by
  have hsettles := h.settles (fun name hname _ => hnames name hname) hstart hplace .nil
    (Nat.le_trans fs.linkCount_le_resolveDepth (Nat.le_add_right ..))
  rwa [filter_of_isName hnames] at hsettles

/-- Whether a path is absolute, or is read from the directory in which a process works. -/
inductive Based (fs : FileSystem) (p : Path) : Prop
  | absolute (h : p.isAbsolute = true)
  | here {wd : List String} (h : WorksIn fs wd)

namespace Based

variable {p r : Path}

theorem spelled (h : Based fs p) : Spelled fs (resolveStart p) := by
  cases h with
  | absolute h => exact resolveStart_of_isAbsolute h ▸ .root
  | here h => exact .resolveStart h p

theorem placeOf_resolveStart (h : Based fs p) (hstart : fs.start? p.isAbsolute = some place) :
    fs.placeOf (resolveStart p) = place := by
  cases habsolute : p.isAbsolute with
  | true =>
    rw [habsolute] at hstart
    obtain rfl : [] = place := Option.some.inj hstart
    rw [resolveStart_of_isAbsolute habsolute]
    rfl
  | false =>
    cases h with
    | absolute h => cases habsolute.symm.trans h
    | here hwd =>
      rw [habsolute] at hstart
      obtain rfl := Option.some.inj (hwd.directory.symm.trans hstart)
      rw [resolveStart, if_neg (by simp [habsolute])]
      exact hwd.placeOf_here

/-- **What is found is resolved.** The canonical path of what a lookup finds is the path of the
names at which the lookup ends, if nothing on the way is too long to be looked up as it is spelled. -/
theorem resolve_of_find (h : Based fs p) (hnames : ∀ name ∈ p.names, Path.IsName name)
    (hfind : fs.find p true = .ok (.found q)) :
    fs.resolve p = .ok ⟨.root, q⟩ ∨ ∃ e, fs.resolve p = .error e ∧ Unspellable e := by
  obtain ⟨-, start, hstart, hwalk⟩ := find_eq_ok_iff.mp hfind
  obtain ⟨n, hwalks⟩ := walks_of_walk hwalk
  have hsettles := hwalks.settles_path hnames h.spelled (h.placeOf_resolveStart hstart)
  rw [resolve_eq]
  generalize fs.resolveWithin _ _ _ _ = r at hsettles ⊢
  cases hsettles with
  | reached hspelled hq => exact .inl (congrArg Except.ok (hq ▸ hspelled.fromWorkingDirectory_eq))
  | unspellable hspelled hstart hnode hentry he => exact .inr ⟨_, rfl, he⟩

end Based

theorem WorksIn.resolve_of_find {wd : List String} (hwd : WorksIn fs wd) {p : Path}
    (hnames : ∀ name ∈ p.names, Path.IsName name) (h : fs.find p true = .ok (.found q)) :
    fs.resolve p = .ok ⟨.root, q⟩ ∨ ∃ e, fs.resolve p = .error e ∧ Unspellable e :=
  (Based.here hwd).resolve_of_find hnames h

/-- A path that cannot be resolved to where it leads, or whose canonical path cannot be looked up,
because a path on the way or at the end is such as none can be looked up. -/
inductive Unresolvable (fs : FileSystem) (p : Path) : Prop
  | onTheWay {e : Fault} (h : fs.resolve p = .error e) (he : Unspellable e)
  | atTheEnd {r : Path} {e : Fault} (h : fs.resolve p = .ok r) (hentry : fs.entryAt r = .error e)
    (he : Unspellable e)

/-- Names that are resolved hold no `U+0000`. -/
theorem Resolves.nul_not_mem {depth : Nat} {opened : List Path} {p r : Path}
    (h : fs.Resolves depth opened p names r) : ∀ name ∈ names, '\x00' ∉ name.toList := by
  have hentered {p : Path} {name : String} {node : Node}
      (hentry : fs.entryAt (p.child name) = .ok node) : '\x00' ∉ name.toList := by
    have hnul := (entryAt_eq_ok hentry).1
    rw [hasNul, Path.child, List.any_append, Bool.or_eq_false_iff] at hnul
    simpa using hnul.2
  induction h with
  | arrived => exact List.forall_mem_nil _
  | up h ih => exact List.forall_mem_cons.mpr ⟨by decide, ih⟩
  | down hup hentry hlink h ih => exact List.forall_mem_cons.mpr ⟨hentered hentry, ih⟩
  | follow hup hentry hnew htarget h ihTarget ih =>
    exact List.forall_mem_cons.mpr ⟨hentered hentry, ih⟩

/-- A canonical path that leads somewhere leads where its names do. -/
theorem Direct.find_eq {p : Path} (h : Direct fs p) (hfind : fs.find p true = .ok (.found q)) :
    q = p.names := by
  rw [h.eq] at hfind
  rcases find_of_straight h.straight hfind with heq | heq
  · exact Arrival.found.inj heq
  · cases heq

/-- Under straight names it does not matter whether a link at the end would be followed. -/
theorem stride_follow {follow : Bool} {s : Stride} (start : List String)
    (h : Straight root (start ++ names)) (hstride : stride root follow start names = .ok s)
    (follow' : Bool) : stride root follow' start names = .ok s := by
  induction names generalizing start with
  | nil => exact hstride
  | cons name rest ih =>
    obtain ⟨⟨es, hdir⟩, hlong, -⟩ := stride_cons_eq_ok h.first hstride
    rw [stride_cons_of_straight h.first hdir hlong] at hstride ⊢
    split_ifs at hstride ⊢
    · exact ih (start ++ [name]) (by simpa using h) hstride
    · exact hstride

/-- A node is found under the straight names that lead to it, unless one of them is too long. -/
theorem stride_of_node {node : Node} (follow : Bool) (start : List String)
    (h : Straight root (start ++ names)) (hnode : root.at? (start ++ names) = some node) :
    stride root follow start names = .ok (.arrived (.found (start ++ names))) ∨
      stride root follow start names = .error .nameTooLong := by
  induction names generalizing start with
  | nil =>
    rw [List.append_nil]
    exact .inl rfl
  | cons name rest ih =>
    rw [List.append_cons] at hnode
    obtain ⟨first, hfirst, -⟩ := Option.bind_eq_some_iff.mp (root.at?_append _ rest ▸ hnode)
    obtain ⟨es, hdir⟩ := exists_dir_of_at?_append hfirst
    obtain ⟨hself, hup⟩ := h.down name (by simp)
    by_cases hlong : maxNameBytes < name.utf8ByteSize
    · right
      rw [stride_cons hdir, if_neg hself, if_neg hup, if_pos hlong]
    · rw [stride_cons_of_straight h.first hdir hlong, if_pos (by simp [hfirst])]
      simpa using ih (start ++ [name]) (by simpa using h) hnode

/-- A directory is found by its straight names, unless their path is such as none can be looked up. -/
theorem Straight.isDir (h : Straight fs.root place) {es : List (String × Node)}
    (hdir : fs.root.at? place = some (.dir es)) :
    fs.isDir ⟨.root, place⟩ = .ok true ∨
      ∃ e, fs.entryAt ⟨.root, place⟩ = .error e ∧ Unspellable e := by
  cases hnul : hasNul ⟨.root, place⟩ with
  | true => exact .inr ⟨_, by rw [entryAt, if_pos hnul], .nul⟩
  | false =>
    by_cases hlong : maxPathBytes < (toString (⟨.root, place⟩ : Path)).utf8ByteSize
    · exact .inr ⟨_, entryAt_of_find_error hnul (by rw [find, lookUp, if_pos hlong]), .tooLong _⟩
    rcases stride_of_node false [] h hdir with hstride | hstride
    · have hfind := (find_eq_ok_iff_of_straight h).mpr ⟨hlong, stride_follow [] h hstride true⟩
      exact .inl (isDir_of_find hnul hfind hdir)
    · refine .inr ⟨_, entryAt_of_find_error hnul ?_, .tooLong _⟩
      rw [find, lookUp, if_neg hlong]
      change walk fs.root false maxLinks [] place = _
      rw [walk.eq_def, hstride]

/-- Straight names under which a directory is found are a canonical path. -/
theorem Straight.direct (h : Straight fs.root place) (hnames : ∀ name ∈ place, Path.IsName name)
    (hisDir : fs.isDir ⟨.root, place⟩ = .ok true) : Direct fs ⟨.root, place⟩ := by
  rcases List.eq_nil_or_concat' place with rfl | ⟨front, last, rfl⟩
  · exact .root
  · obtain ⟨hnul, found, es, hfind, hdir⟩ := isDir_eq_ok_true hisDir
    have hfront := (direct_front h (fun n hn => hnames n (List.mem_append_left _ hn)) (by simp) hnul
      hfind).1
    rcases find_of_straight h hfind with heq | heq
    · obtain rfl := Arrival.found.inj heq
      -- Where a link would be followed, there is none.
      obtain ⟨hlong, hstride⟩ := (find_eq_ok_iff_of_straight h).mp hfind
      have hfind' := (find_eq_ok_iff_of_straight h).mpr ⟨hlong, stride_follow [] h hstride false⟩
      exact .child hfront (hnames last (by simp)) (h.down last (by simp)).2
        (entryAt_of_find hnul hfind' hdir) nofun
    · cases heq

end ElmSuite.FileSystem
