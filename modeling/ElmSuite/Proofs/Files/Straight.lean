import Mathlib.Data.List.Induction
import ElmSuite.Files.Resolve
import ElmSuite.Proofs.Files.Written
import ElmSuite.Proofs.Path

/-!
# Places reached without links

Names that lead up nowhere and to no link are looked up one by one, so that a lookup that
gets somewhere ends at the place they name. The canonical path of a node is such a path,
and is its own canonical path.
-/

namespace ElmSuite.FileSystem

open Node

/-! ## Straight lookups -/

/-- Names that lead down from node to node, none of which is a link. -/
structure Straight (root : Node) (names : List String) : Prop where
  down : ∀ name ∈ names, name ≠ "." ∧ name ≠ ".."
  noLink : ∀ front, front ≠ [] → front <+: names →
    ∀ target, root.at? front ≠ some (.link target)

section Straight

variable {root : Node}

theorem Straight.of_prefix {front names : List String} (h : Straight root names)
    (hfront : front <+: names) : Straight root front :=
  ⟨fun name hname => h.down name (hfront.subset hname),
    fun before hne hbefore => h.noLink before hne (hbefore.trans hfront)⟩

theorem outlineAt_eq_link_iff {names : List String} {target : String} :
    root.outlineAt names = some (.link target) ↔ root.at? names = some (.link target) := by
  rw [outlineAt, Option.map_eq_some_iff]
  constructor
  · rintro ⟨node, hnode, houtline⟩
    cases node with
    | link target' => rw [hnode, show target' = target from Node.link.inj houtline]
    | file content executable => cases houtline
    | dir es => cases houtline
  · exact fun h => ⟨_, h, rfl⟩

/-- A tree that grows gets no new links. -/
theorem Straight.of_grows {after : Node} {place names : List String} (h : Straight root names)
    (hgrows : Grows place root after) : Straight after names where
  down := h.down
  noLink front hne hfront target hlink :=
    h.noLink front hne hfront target
      (outlineAt_eq_link_iff.mp (hgrows.links front target (outlineAt_eq_link_iff.mpr hlink)))

theorem Straight.first {start rest : List String} {name : String}
    (h : Straight root (start ++ name :: rest)) : Straight root (start ++ [name]) :=
  h.of_prefix ⟨rest, by simp⟩

/-- Where a lookup goes under a straight name. -/
theorem stride_cons_of_straight {follow : Bool} {start rest : List String} {name : String}
    {es : List (String × Node)} (h : Straight root (start ++ [name]))
    (hdir : root.at? start = some (.dir es)) (hlong : ¬maxNameBytes < name.utf8ByteSize) :
    stride root follow start (name :: rest) =
      if (root.at? (start ++ [name])).isSome then stride root follow (start ++ [name]) rest
      else if rest = [] then .ok (.arrived (.vacant (start ++ [name]))) else .error .noEntry := by
  obtain ⟨hself, hup⟩ := h.down name (by simp)
  rw [stride_cons hdir, if_neg hself, if_neg hup, if_neg hlong, outlineAt]
  cases hnode : root.at? (start ++ [name]) with
  | none => rfl
  | some node =>
    cases node with
    | file | dir => rfl
    | link target => exact absurd hnode (h.noLink _ (by simp) (List.prefix_refl _) target)

/-- What a lookup that gets somewhere does under a straight name. -/
theorem stride_cons_eq_ok {follow : Bool} {start rest : List String} {name : String} {s : Stride}
    (h : Straight root (start ++ [name]))
    (hstride : stride root follow start (name :: rest) = .ok s) :
    (∃ es, root.at? start = some (.dir es)) ∧ ¬maxNameBytes < name.utf8ByteSize ∧
      ((root.at? (start ++ [name])).isSome = true ∧
          stride root follow (start ++ [name]) rest = .ok s ∨
        rest = [] ∧ s = .arrived (.vacant (start ++ [name]))) := by
  obtain ⟨es, hdir⟩ := exists_dir_of_stride_cons hstride
  obtain ⟨hself, hup⟩ := h.down name (by simp)
  have hlong : ¬maxNameBytes < name.utf8ByteSize := by
    intro hlong
    rw [stride_cons hdir, if_neg hself, if_neg hup, if_pos hlong] at hstride
    cases hstride
  rw [stride_cons_of_straight h hdir hlong] at hstride
  refine ⟨⟨es, hdir⟩, hlong, ?_⟩
  split_ifs at hstride with hsome hlast
  · exact .inl ⟨hsome, hstride⟩
  · exact .inr ⟨hlast, (Except.ok.inj hstride).symm⟩

/-- A straight lookup ends at the place that is named. -/
theorem arrived_of_straight {follow : Bool} {names : List String} {s : Stride}
    (start : List String) (h : Straight root (start ++ names))
    (hstride : stride root follow start names = .ok s) :
    s = .arrived (.found (start ++ names)) ∨ s = .arrived (.vacant (start ++ names)) := by
  induction names generalizing start with
  | nil =>
    cases hstride
    exact .inl (by rw [List.append_nil])
  | cons name rest ih =>
    obtain ⟨-, -, ⟨-, hstride⟩ | ⟨rfl, rfl⟩⟩ := stride_cons_eq_ok h.first hstride
    · simpa using ih (start ++ [name]) (by simpa using h) hstride
    · exact .inr rfl

/-- On the way, a lookup passes through the directories that straight names lead to. -/
theorem stride_front {follow : Bool} {front rest : List String} {s : Stride}
    (start : List String) (h : Straight root (start ++ front)) (hrest : rest ≠ [])
    (hstride : stride root follow start (front ++ rest) = .ok s) (follow' : Bool) :
    stride root follow' start front = .ok (.arrived (.found (start ++ front))) ∧
      stride root follow (start ++ front) rest = .ok s ∧
      ∃ es, root.at? (start ++ front) = some (.dir es) := by
  induction front generalizing start with
  | nil =>
    obtain ⟨name, rest, rfl⟩ := List.exists_cons_of_ne_nil hrest
    rw [List.append_nil]
    exact ⟨rfl, hstride, exists_dir_of_stride_cons hstride⟩
  | cons name front ih =>
    obtain ⟨⟨es, hdir⟩, hlong, ⟨hsome, hstride⟩ | ⟨hnil, -⟩⟩ := stride_cons_eq_ok h.first hstride
    · rw [stride_cons_of_straight h.first hdir hlong, if_pos hsome]
      simpa using ih (start ++ [name]) (by simpa using h) hstride
    · exact absurd hnil (by simp [hrest])

/-- Where a straight lookup ended at a node, a longer one goes on. -/
theorem stride_append {follow : Bool} {front : List String} (start rest : List String)
    (h : Straight root (start ++ front))
    (hfront : stride root follow start front = .ok (.arrived (.found (start ++ front)))) :
    stride root follow start (front ++ rest) = stride root follow (start ++ front) rest := by
  induction front generalizing start with
  | nil => rw [List.append_nil, List.nil_append]
  | cons name front ih =>
    obtain ⟨⟨es, hdir⟩, hlong, ⟨hsome, hstride⟩ | ⟨-, heq⟩⟩ := stride_cons_eq_ok h.first hfront
    · rw [List.cons_append, stride_cons_of_straight h.first hdir hlong, if_pos hsome]
      simpa using ih (start ++ [name]) (by simpa using h) (by simpa using hstride)
    · cases heq

end Straight

/-! ## Straight paths -/

variable {fs after : FileSystem}

theorem find_eq_ok_iff_of_straight {names : List String} {follow : Bool} {a : Arrival}
    (h : Straight fs.root names) :
    fs.find ⟨.root, names⟩ follow = .ok a ↔
      ¬maxPathBytes < (toString (⟨.root, names⟩ : Path)).utf8ByteSize ∧
        stride fs.root follow [] names = .ok (.arrived a) := by
  rw [find_eq_ok_iff]
  refine and_congr_right fun _ => ?_
  constructor
  · rintro ⟨start, hstart, hwalk⟩
    obtain rfl : [] = start := Option.some.inj hstart
    rcases walk_eq_ok hwalk with hstride | ⟨_, above, target, rest, -, hstride, -⟩
    · exact hstride
    · rcases arrived_of_straight [] h hstride with h | h <;> cases h
  · exact fun hstride => ⟨[], rfl, walk_of_arrived _ hstride⟩

theorem find_of_straight {names : List String} {follow : Bool} {a : Arrival}
    (h : Straight fs.root names) (hfind : fs.find ⟨.root, names⟩ follow = .ok a) :
    a = .found names ∨ a = .vacant names := by
  have hstride := ((find_eq_ok_iff_of_straight h).mp hfind).2
  rcases arrived_of_straight [] h hstride with h | h
  · exact .inl (Stride.arrived.inj h)
  · exact .inr (Stride.arrived.inj h)

/-- On the way of a straight path are the directories that it names. -/
theorem find_front {front rest : List String} {follow : Bool} {a : Arrival}
    (h : Straight fs.root (front ++ rest)) (hrest : rest ≠ [])
    (hfind : fs.find ⟨.root, front ++ rest⟩ follow = .ok a) (follow' : Bool) :
    fs.find ⟨.root, front⟩ follow' = .ok (.found front) ∧
      ∃ es, fs.root.at? front = some (.dir es) := by
  obtain ⟨hlong, hstride⟩ := (find_eq_ok_iff_of_straight h).mp hfind
  have hfront := h.of_prefix (List.prefix_append front rest)
  obtain ⟨hfound, -, hdir⟩ := stride_front [] hfront hrest hstride follow'
  have hle := Path.utf8ByteSize_le_append front rest
  exact ⟨(find_eq_ok_iff_of_straight hfront).mpr ⟨by omega, hfound⟩, hdir⟩

/-- A last name is looked up without a look behind it, if no link is followed there. -/
theorem stride_last {root : Node} {place : List String} {name : String} {es : List (String × Node)}
    (hdir : root.at? place = some (.dir es)) (hself : name ≠ ".") (hup : name ≠ "..")
    (hshort : ¬maxNameBytes < name.utf8ByteSize) :
    stride root false place [name] =
      .ok (.arrived (if (root.at? (place ++ [name])).isSome then .found (place ++ [name])
        else .vacant (place ++ [name]))) := by
  rw [stride_cons hdir, if_neg hself, if_neg hup, if_neg hshort, outlineAt]
  cases root.at? (place ++ [name]) with
  | none => rfl
  | some node => cases node <;> rfl

/-- Where a last name is found, it is found under itself in a directory. -/
theorem stride_last_eq_ok {root : Node} {place : List String} {name : String} {s : Stride}
    (hself : name ≠ ".") (hup : name ≠ "..") (h : stride root false place [name] = .ok s) :
    (∃ es, root.at? place = some (.dir es)) ∧ ¬maxNameBytes < name.utf8ByteSize ∧
      s = .arrived (if (root.at? (place ++ [name])).isSome then .found (place ++ [name])
        else .vacant (place ++ [name])) := by
  obtain ⟨es, hdir⟩ := exists_dir_of_stride_cons h
  have hshort : ¬maxNameBytes < name.utf8ByteSize := by
    intro hlong
    rw [stride_cons hdir, if_neg hself, if_neg hup, if_pos hlong] at h
    cases h
  rw [stride_last hdir hself hup hshort] at h
  exact ⟨⟨es, hdir⟩, hshort, (Except.ok.inj h).symm⟩

/-- A lookup under a straight path that follows no link at its end gets no further than the name. -/
theorem Straight.find_child {front found : List String} {name : String} (h : Straight fs.root front)
    (hself : name ≠ ".") (hup : name ≠ "..")
    (hfind : fs.find ⟨.root, front ++ [name]⟩ false = .ok (.found found)) :
    found = front ++ [name] := by
  obtain ⟨-, start, hstart, hwalk⟩ := find_eq_ok_iff.mp hfind
  obtain rfl : [] = start := Option.some.inj hstart
  rcases walk_eq_ok hwalk with hstride | ⟨_, above, target, rest, -, hstride, -⟩
  · obtain ⟨-, hlast, -⟩ := stride_front [] h (by simp) hstride false
    obtain ⟨-, -, heq⟩ := stride_last_eq_ok hself hup hlast
    split at heq <;> cases heq
    rfl
  · obtain ⟨-, hlast, -⟩ := stride_front [] h (by simp) hstride false
    obtain ⟨-, -, heq⟩ := stride_last_eq_ok hself hup hlast
    split at heq <;> cases heq

/-- Where a lookup ends at a node, it can be told of what kind it is. -/
theorem leadsTo_of_find {kind : Node → Bool} {names : List String} {node : Node} {p : Path}
    (hnul : hasNul p = false) (hfind : fs.find p true = .ok (.found names))
    (hnode : fs.root.at? names = some node) : fs.leadsTo kind p = .ok (kind node) := by
  simp only [leadsTo, hnul, Bool.false_eq_true, if_false, status, hfind, arrivedAt, hnode]

theorem leadsTo_eq_ok_true {kind : Node → Bool} {p : Path} (h : fs.leadsTo kind p = .ok true) :
    hasNul p = false ∧ ∃ names node, fs.find p true = .ok (.found names) ∧
      fs.root.at? names = some node ∧ kind node = true := by
  rw [leadsTo] at h
  split at h
  · cases h
  · next hnul =>
    refine ⟨by simpa using hnul, ?_⟩
    rw [status] at h
    cases hfind : fs.find p true with
    | error e =>
      simp only [hfind, arrivedAt] at h
      split at h <;> cases h
    | ok arrival =>
      cases arrival with
      | vacant names =>
        simp only [hfind, arrivedAt] at h
        split at h <;> cases h
      | found names =>
        cases hnode : fs.root.at? names with
        | none =>
          simp only [hfind, arrivedAt, hnode] at h
          split at h <;> cases h
        | some node =>
          simp only [hfind, arrivedAt, hnode] at h
          exact ⟨names, node, rfl, hnode, Except.ok.inj h⟩

theorem isDir_of_find {names : List String} {es : List (String × Node)} {p : Path}
    (hnul : hasNul p = false) (hfind : fs.find p true = .ok (.found names))
    (hdir : fs.root.at? names = some (.dir es)) : fs.isDir p = .ok true :=
  leadsTo_of_find hnul hfind hdir

theorem entryAt_of_find {names : List String} {node : Node} {p : Path}
    (hnul : hasNul p = false) (hfind : fs.find p false = .ok (.found names))
    (hnode : fs.root.at? names = some node) : fs.entryAt p = .ok node := by
  simp only [entryAt, hnul, Bool.false_eq_true, if_false, status, hfind, arrivedAt, hnode]

theorem entryAt_of_find_error {reason : FileErrorReason} {p : Path} (hnul : hasNul p = false)
    (hfind : fs.find p false = .error reason) :
    fs.entryAt p = .error (.file ⟨reason, toString p⟩) := by
  simp only [entryAt, hnul, Bool.false_eq_true, if_false, status, hfind, arrivedAt]

theorem entryAt_eq_ok {p : Path} {node : Node} (h : fs.entryAt p = .ok node) :
    hasNul p = false ∧ ∃ names, fs.find p false = .ok (.found names) ∧
      fs.root.at? names = some node := by
  rw [entryAt] at h
  split at h
  · cases h
  · next hnul =>
    refine ⟨by simpa using hnul, ?_⟩
    rw [status] at h
    cases hfind : fs.find p false with
    | error e => simp [hfind, arrivedAt] at h
    | ok arrival =>
      cases arrival with
      | vacant names => simp [hfind, arrivedAt] at h
      | found names =>
        cases hnode : fs.root.at? names with
        | none => simp [hfind, arrivedAt, hnode] at h
        | some node' =>
          simp only [hfind, arrivedAt, hnode, Except.ok.injEq] at h
          exact ⟨names, rfl, by rw [hnode, h]⟩

theorem isDir_eq_ok_true {p : Path} (h : fs.isDir p = .ok true) :
    hasNul p = false ∧ ∃ names es, fs.find p true = .ok (.found names) ∧
      fs.root.at? names = some (.dir es) := by
  obtain ⟨hnul, names, node, hfind, hnode, hkind⟩ := leadsTo_eq_ok_true h
  cases node with
  | dir es => exact ⟨hnul, names, es, hfind, hnode⟩
  | file | link => cases hkind

theorem isFile_eq_ok_true {p : Path} (h : fs.isFile p = .ok true) :
    hasNul p = false ∧ ∃ names content executable, fs.find p true = .ok (.found names) ∧
      fs.root.at? names = some (.file content executable) := by
  obtain ⟨hnul, names, node, hfind, hnode, hkind⟩ := leadsTo_eq_ok_true h
  cases node with
  | file content executable => exact ⟨hnul, names, content, executable, hfind, hnode⟩
  | dir | link => cases hkind

/-- What is a file is no directory. -/
theorem isDir_of_isFile {p : Path} (h : fs.isFile p = .ok true) : fs.isDir p = .ok false := by
  obtain ⟨hnul, names, content, executable, hfind, hnode⟩ := isFile_eq_ok_true h
  exact leadsTo_of_find hnul hfind hnode

theorem read_eq_ok {p : Path} {content : List UInt8} (h : fs.read p = .ok content) :
    hasNul p = false ∧ ∃ names executable, fs.find p true = .ok (.found names) ∧
      fs.root.at? names = some (.file content executable) := by
  rw [read] at h
  split at h
  · cases h
  · next hnul =>
    refine ⟨by simpa using hnul, ?_⟩
    rw [status] at h
    cases hfind : fs.find p true with
    | error e => simp [hfind, arrivedAt] at h
    | ok arrival =>
      cases arrival with
      | vacant names => simp [hfind, arrivedAt] at h
      | found names =>
        cases hnode : fs.root.at? names with
        | none => simp [hfind, arrivedAt, hnode] at h
        | some node =>
          cases node with
          | dir | link => simp [hfind, arrivedAt, hnode] at h
          | file content' executable =>
            simp only [hfind, arrivedAt, hnode, Except.ok.injEq] at h
            exact ⟨names, executable, rfl, by rw [hnode, h]⟩

theorem read_of_find {names : List String} {content : List UInt8} {executable : Bool} {p : Path}
    (hnul : hasNul p = false) (hfind : fs.find p true = .ok (.found names))
    (hfile : fs.root.at? names = some (.file content executable)) : fs.read p = .ok content := by
  simp only [read, hnul, Bool.false_eq_true, if_false, status, hfind, arrivedAt, hfile]

/-! ## Canonical paths -/

/-- An absolute path that leads from node to node, none of which is a link. -/
inductive Direct (fs : FileSystem) : Path → Prop
  | root : Direct fs ⟨.root, []⟩
  | child {p : Path} {name : String} {node : Node} (h : Direct fs p) (hname : Path.IsName name)
      (hup : name ≠ "..") (hentry : fs.entryAt (p.child name) = .ok node)
      (hlink : ∀ target, node ≠ .link target) : Direct fs (p.child name)

theorem Direct.anchor {p : Path} (h : Direct fs p) : p.anchor = .root := by
  induction h with
  | root => rfl
  | child _ _ _ _ _ ih => exact ih

theorem Direct.eq {p : Path} (h : Direct fs p) : p = ⟨.root, p.names⟩ := by
  rw [← h.anchor]

theorem Direct.isName {p : Path} (h : Direct fs p) : ∀ name ∈ p.names, Path.IsName name := by
  induction h with
  | root => simp
  | child _ hname _ _ _ ih =>
    intro n hn
    rcases List.mem_append.mp hn with hn | hn
    · exact ih n hn
    · exact List.mem_singleton.mp hn ▸ hname

theorem Direct.up_not_mem {p : Path} (h : Direct fs p) : ".." ∉ p.names := by
  induction h with
  | root => simp
  | child _ _ hup _ _ ih => simpa [Path.child, Ne.symm hup] using ih

theorem Direct.parent {p : Path} (h : Direct fs p) : Direct fs p.parent := by
  cases h with
  | root => exact .root
  | child h =>
    rw [show (Path.child _ _).parent = _ from by simp [Path.child, Path.parent]; rfl]
    exact h

/-- What is above a canonical path is canonical. -/
theorem Direct.of_mem_parents {p q : Path} (h : Direct fs p) (hq : q ∈ p.parents) : Direct fs q := by
  obtain ⟨hanchor, n, -, hnames⟩ := Path.mem_parents.mp hq
  have hcut {front rest : List String} (h : Direct fs ⟨.root, front ++ rest⟩) :
      Direct fs ⟨.root, front⟩ := by
    induction rest using List.reverseRecOn with
    | nil => rwa [List.append_nil] at h
    | append_singleton rest name ih =>
      have hparent := h.parent
      rw [Path.parent, ← List.append_assoc, List.dropLast_concat] at hparent
      exact ih hparent
  have hq : q = ⟨.root, p.names.take n⟩ := by rw [← hnames, ← h.anchor, ← hanchor]
  rw [h.eq, ← List.take_append_drop n p.names] at h
  exact hq ▸ hcut h

/-- A canonical path names places reached without links. -/
theorem Direct.straight {p : Path} (h : Direct fs p) : Straight fs.root p.names := by
  induction h with
  | root => exact ⟨by simp, fun front hne hfront => absurd (List.prefix_nil.mp hfront) hne⟩
  | @child p name node h hname hup hentry hlink ih =>
    obtain ⟨-, place, hfind, hnode⟩ := entryAt_eq_ok hentry
    have hdown : ∀ n ∈ p.names ++ [name], n ≠ "." ∧ n ≠ ".." := by
      intro n hn
      rcases List.mem_append.mp hn with hn | hn
      · exact ih.down n hn
      · exact List.mem_singleton.mp hn ▸ ⟨hname.ne_dot, hup⟩
    refine ⟨hdown, fun front hne hfront target hat => ?_⟩
    rcases List.prefix_concat_iff.mp hfront with rfl | hfront
    · -- A lookup that does not follow the link would end at it.
      rw [h.eq] at hfind
      obtain rfl := ih.find_child hname.ne_dot hup hfind
      rw [hat] at hnode
      exact hlink target (Option.some.inj hnode).symm
    · exact ih.noLink front hne hfront target hat

/-- The directory above a canonical path is that of its names but the last. -/
theorem Direct.above {p : Path} (h : Direct fs p) : Direct fs (above p) := by
  rw [FileSystem.above]
  cases hlast : p.names.getLast? with
  | none =>
    have habsolute : p.isAbsolute = true := by rw [h.eq]; rfl
    simpa [habsolute] using h
  | some last =>
    have hup : last ≠ ".." := by
      rintro rfl
      exact h.up_not_mem (List.mem_of_getLast? hlast)
    simpa [hup] using h.parent

theorem hasNul_append {front rest : List String} :
    hasNul ⟨.root, front ++ rest⟩ = (hasNul ⟨.root, front⟩ || hasNul ⟨.root, rest⟩) := by
  simp only [hasNul, List.any_append]

/-- The names on the way of a straight path that leads somewhere are a canonical path. -/
theorem direct_front {front rest : List String} {follow : Bool} {a : Arrival}
    (h : Straight fs.root (front ++ rest)) (hnames : ∀ n ∈ front, Path.IsName n) (hrest : rest ≠ [])
    (hnul : hasNul ⟨.root, front ++ rest⟩ = false)
    (hfind : fs.find ⟨.root, front ++ rest⟩ follow = .ok a) :
    Direct fs ⟨.root, front⟩ ∧ fs.isDir ⟨.root, front⟩ = .ok true := by
  have hnulFront {front rest : List String} (h : hasNul ⟨.root, front ++ rest⟩ = false) :
      hasNul ⟨.root, front⟩ = false := by
    rw [hasNul_append, Bool.or_eq_false_iff] at h
    exact h.1
  obtain ⟨hfound, es, hdir⟩ := find_front h hrest hfind true
  refine ⟨?_, isDir_of_find (hnulFront hnul) hfound hdir⟩
  induction front using List.reverseRecOn generalizing rest es with
  | nil => exact .root
  | append_singleton front name ih =>
    obtain ⟨hfound', es', hdir'⟩ := find_front h hrest hfind false
    have hentry := entryAt_of_find (hnulFront hnul) hfound' hdir'
    have hfront : Direct fs ⟨.root, front⟩ := by
      rw [List.append_assoc] at h hnul hfind
      obtain ⟨habove, es'', hdir''⟩ := find_front h (by simp) hfind true
      exact ih h (fun n hn => hnames n (List.mem_append_left _ hn)) (by simp) hnul hfind habove
        es'' hdir''
    exact .child hfront (hnames name (by simp)) (h.down name (by simp)).2 hentry nofun

/-- Beside the way of a straight path, it can be told whether a name leads to a directory. -/
theorem isDir_beside {front rest : List String} {name : String} {follow : Bool} {a : Arrival}
    (h : Straight fs.root (front ++ rest)) (hrest : rest ≠ [])
    (hfind : fs.find ⟨.root, front ++ rest⟩ follow = .ok a)
    (hfront : Direct fs ⟨.root, front⟩) (hstraight : Straight fs.root (front ++ [name]))
    (hname : Path.IsName name) (hnul : hasNul ⟨.root, front ++ [name]⟩ = false)
    (hshort : name.utf8ByteSize ≤ maxNameBytes)
    (hlength : (toString (⟨.root, front ++ [name]⟩ : Path)).utf8ByteSize ≤ maxPathBytes) :
    ∃ isDirectory, fs.isDir ⟨.root, front ++ [name]⟩ = .ok isDirectory ∧
      (isDirectory = true → Direct fs ⟨.root, front ++ [name]⟩) := by
  obtain ⟨-, es, hdir⟩ := find_front h hrest hfind true
  have hlookup (follow : Bool) : fs.find ⟨.root, front ++ [name]⟩ follow =
      .ok (if (fs.root.at? (front ++ [name])).isSome then .found (front ++ [name])
        else .vacant (front ++ [name])) := by
    refine (find_eq_ok_iff_of_straight hstraight).mpr ⟨by omega, ?_⟩
    have hfound := (find_front h hrest hfind follow).1
    have hstride := ((find_eq_ok_iff_of_straight hfront.straight).mp hfound).2
    rw [stride_append [] [name] hfront.straight hstride, List.nil_append,
      stride_cons_of_straight hstraight hdir (by omega)]
    split <;> rfl
  cases hnode : fs.root.at? (front ++ [name]) with
  | none =>
    simp only [hnode, Option.isSome_none, Bool.false_eq_true, if_false] at hlookup
    refine ⟨false, ?_, nofun⟩
    simp only [isDir, leadsTo, hnul, Bool.false_eq_true, if_false, status, hlookup, arrivedAt,
      FileErrorReason.isAbsence, if_true]
  | some node =>
    simp only [hnode, Option.isSome_some, if_true] at hlookup
    refine ⟨node.isDir, ?_, fun hisDir => ?_⟩
    · simp only [isDir, leadsTo, hnul, Bool.false_eq_true, if_false, status, hlookup, arrivedAt, hnode]
    · refine .child hfront hname (hstraight.down name (by simp)).2
        (entryAt_of_find hnul (hlookup false) hnode) ?_
      rintro target rfl
      cases hisDir

/-! ### Paths that are resolved -/

/-- Names are gone through to a canonical path if targets of links are resolved to such. -/
theorem direct_of_resolveNames
    {resolveTarget : Path → Path → List String → Except Fault Path}
    (htarget : ∀ {link start names q}, Direct fs start → (∀ n ∈ names, Path.IsName n) →
      resolveTarget link start names = .ok q → Direct fs q)
    {opened : List Path} {names : List String} {place q : Path} (hplace : Direct fs place)
    (hnames : ∀ n ∈ names, Path.IsName n)
    (h : fs.resolveNames resolveTarget opened place names = .ok q) : Direct fs q := by
  induction names generalizing place with
  | nil => exact Except.ok.inj h ▸ hplace
  | cons name rest ih =>
    have hrest : ∀ n ∈ rest, Path.IsName n := fun n hn => hnames n (List.mem_cons_of_mem name hn)
    rw [resolveNames] at h
    split at h
    · exact ih hplace.above hrest h
    · next hup =>
      dsimp only at h
      split at h
      · cases h
      · next target hentry =>
        split at h
        · cases h
        · split at h
          · cases h
          · next reached hreached =>
            refine ih (htarget ?_ (fun n hn => Path.isName_of_mem_ofString hn) hreached) hrest h
            split
            · exact .root
            · exact hplace
      · next node hlink hentry =>
        exact ih (.child hplace (hnames name (List.mem_cons_self ..)) hup hentry
          fun target heq => hlink target heq) hrest h

theorem direct_of_resolveWithin {depth : Nat} {opened : List Path} {names : List String}
    {place q : Path} (hplace : Direct fs place) (hnames : ∀ n ∈ names, Path.IsName n)
    (h : fs.resolveWithin depth opened place names = .ok q) : Direct fs q := by
  induction depth generalizing opened place names q with
  | zero =>
    refine direct_of_resolveNames ?_ hplace hnames h
    intro _ _ _ _ _ _ hnone
    cases hnone
  | succ depth ih => exact direct_of_resolveNames (fun hs hn h => ih hs hn h) hplace hnames h

theorem isAbsolute_of_resolve {p q : Path} (h : fs.resolve p = .ok q) : q.isAbsolute = true := by
  rw [resolve] at h
  split at h
  · cases h
  · rw [← Except.ok.inj h, fromWorkingDirectory]
    split
    · assumption
    · rfl

theorem resolveStart_of_isAbsolute {p : Path} (h : p.isAbsolute = true) :
    resolveStart p = ⟨.root, []⟩ := by
  rw [resolveStart, if_pos h]

/-- **The canonical path of an absolute path** leads to its end without links. -/
theorem direct_of_resolve {p q : Path} (habsolute : p.isAbsolute = true)
    (hnames : ∀ n ∈ p.names, Path.IsName n) (h : fs.resolve p = .ok q) : Direct fs q := by
  rw [resolve, resolveStart_of_isAbsolute habsolute] at h
  split at h
  · cases h
  · next reached hreached =>
    have hdirect := direct_of_resolveWithin .root hnames hreached
    have hroot : reached.isAbsolute = true := by rw [hdirect.eq]; rfl
    rw [fromWorkingDirectory, if_pos hroot] at h
    exact Except.ok.inj h ▸ hdirect

theorem resolveNames_of_direct {p : Path} (h : Direct fs p)
    (resolveTarget : Path → Path → List String → Except Fault Path) (opened : List Path)
    (rest : List String) :
    fs.resolveNames resolveTarget opened ⟨.root, []⟩ (p.names ++ rest) =
      fs.resolveNames resolveTarget opened p rest := by
  induction h generalizing rest with
  | root => rfl
  | @child p name node h hname hup hentry hlink ih =>
    have hnames : (p.child name).names ++ rest = p.names ++ name :: rest := by simp [Path.child]
    rw [hnames, ih, resolveNames, if_neg hup]
    dsimp only
    rw [hentry]
    cases node with
    | link target => exact absurd rfl (hlink target)
    | file content executable => rfl
    | dir es => rfl

/-- A canonical path is its own canonical path. -/
theorem resolve_of_direct {p : Path} (h : Direct fs p) : fs.resolve p = .ok p := by
  have habsolute : p.isAbsolute = true := by rw [h.eq]; rfl
  have hwithin (depth : Nat) : fs.resolveWithin depth [] ⟨.root, []⟩ p.names = .ok p := by
    cases depth with
    | zero => simpa [resolveWithin, resolveNames] using resolveNames_of_direct h _ [] []
    | succ depth => simpa [resolveWithin, resolveNames] using resolveNames_of_direct h _ [] []
  rw [resolve, resolveStart_of_isAbsolute habsolute, hwithin]
  exact congrArg Except.ok (if_pos habsolute)

end ElmSuite.FileSystem
