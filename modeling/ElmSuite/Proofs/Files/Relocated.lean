import ElmSuite.Files.Glob
import ElmSuite.Proofs.Files.Plain
import ElmSuite.Proofs.Results

/-!
# The same tree in two places

A lookup below a place is a lookup in the tree that is there, but for the length of its path. Two
file systems that have the same tree without links in two places tell the same of what lies
below them, if the same paths are too long.
-/

namespace ElmSuite.FileSystem

variable {root tree node : Node} {fs fs' : FileSystem} {place place' start x : List String}
  {follow : Bool}

/-! ## Lookups below a place -/

/-- Where a lookup that ended in the tree at a place ends. -/
def Arrival.below (place : List String) : Arrival → Arrival
  | .found names => .found (place ++ names)
  | .vacant names => .vacant (place ++ names)

/-- How far a lookup gets that got so far in the tree at a place. -/
def Stride.below (place : List String) : Stride → Stride
  | .arrived arrival => .arrived (arrival.below place)
  | .atLink above target rest => .atLink (place ++ above) target rest

theorem at?_below (htree : root.at? place = some tree) (x : List String) :
    root.at? (place ++ x) = tree.at? x := by
  rw [Node.at?_append, htree, Option.bind_some]

/-- Names that do not lead up are looked up below a place as in the tree that is there. -/
theorem stride_below (htree : root.at? place = some tree) (hup : ".." ∉ x) (start : List String) :
    stride root follow (place ++ start) x =
      (stride tree follow start x).map (Stride.below place) := by
  induction x generalizing start with
  | nil => rfl
  | cons name rest ih =>
    obtain ⟨hname, hrest⟩ := List.ne_and_not_mem_of_not_mem_cons hup
    have hat := at?_below htree start
    cases hnode : tree.at? start with
    | none => simp only [stride, hat, hnode, Except.map]
    | some node =>
      rw [hnode] at hat
      cases node with
      | file | link => simp only [stride, hat, hnode, Except.map]
      | dir es =>
        have hdown := ih hrest (start ++ [name])
        rw [← List.append_assoc] at hdown
        rw [stride_cons hat, stride_cons hnode, if_neg (Ne.symm hname), if_neg (Ne.symm hname),
          Node.outlineAt, Node.outlineAt, List.append_assoc, at?_below htree]
        split_ifs
        · exact ih hrest start
        · rfl
        · cases tree.at? (start ++ [name]) with
          | none =>
            simp only [Option.map_none, strideInto]
            split_ifs <;> simp [Except.map, Stride.below, Arrival.below]
          | some node =>
            cases node with
            | file | dir => exact hdown
            | link target =>
              simp only [Option.map_some, Node.outline, strideInto]
              split_ifs <;> simp [Except.map, Stride.below, Arrival.below]

/-! ## What is found below a place -/

/-- The path of names below a place. -/
def spot (place x : List String) : Path := ⟨.root, place ++ x⟩

theorem child_spot (place x : List String) (name : String) :
    (spot place x).child name = spot place (x ++ [name]) := by
  rw [spot, spot, Path.child, List.append_assoc]

theorem pathBelow_spot (place x below : List String) :
    pathBelow (spot place x) below = spot place (x ++ below) := by
  rw [spot, spot, pathBelow, List.append_assoc]

/-- A tree without links in a place of a file system. -/
structure Located (fs : FileSystem) (place : List String) (tree : Node) : Prop where
  at?_eq : fs.root.at? place = some tree
  plain : Plain tree
  isEntryName : ∀ name ∈ place, IsEntryName name

/-- What is found in a tree, lookups of every length being allowed. -/
def told (tree : Node) (follow : Bool) (x : List String) : Except FileErrorReason Node :=
  ((FileSystem.mk tree none).arrivedAt (walk tree follow maxLinks [] x)).map Prod.snd

/-- What is at names is told of them. -/
theorem Plain.told_of_at? (h : Plain tree) (hnode : tree.at? x = some node) (follow : Bool) :
    told tree follow x = .ok node := by
  have hstride : stride tree follow [] x = .ok (.arrived (.found x)) :=
    stride_of_at? (h.isEntryName_of_at? hnode) hnode fun _ target heq =>
      h.noLink x target (heq ▸ hnode)
  rw [told, walk_of_arrived _ hstride, arrivedAt]
  simp only [hnode]
  rfl

/-- What is told of names that lead down is at these names. -/
theorem Plain.at?_of_told (h : Plain tree) (hdown : ∀ name ∈ x, name ≠ "." ∧ name ≠ "..")
    (htold : told tree follow x = .ok node) : tree.at? x = some node := by
  have hstraight : Straight tree x := ⟨hdown, fun front _ _ target => h.noLink front target⟩
  obtain ⟨⟨names, node'⟩, hstatus, rfl⟩ := map_eq_ok_iff.mp htold
  cases hwalk : walk tree follow maxLinks [] x with
  | error e =>
    rw [hwalk] at hstatus
    cases hstatus
  | ok a =>
    rw [hwalk] at hstatus
    rcases walk_eq_ok hwalk with hstride | ⟨_, _, _, _, -, hstride, -⟩
    · rcases arrived_of_straight [] hstraight hstride with heq | heq
      · obtain rfl := Stride.arrived.inj heq
        rw [arrivedAt, List.nil_append] at hstatus
        cases hat : tree.at? x with
        | none => simp [hat] at hstatus
        | some found => simp_all
      · obtain rfl := Stride.arrived.inj heq
        cases hstatus
    · exact absurd hstride h.stride_ne_atLink

theorem Plain.isSome_of_mem_entries (h : Plain tree) (hnode : tree.at? x = some node)
    {e : String × Node} (he : e ∈ node.entries) : (tree.at? (x ++ [e.1])).isSome := by
  cases node with
  | file | link => cases he
  | dir es =>
    have hlookup : es.lookup e.1 = some e.2 := (lookup_eq_some_iff (h.nodup x es hnode)).mpr he
    have hchild : Node.entry? (.dir es) e.1 = some e.2 := hlookup
    rw [at?_below hnode, Node.at?_cons, hchild, Option.bind_some, Node.at?_nil]
    rfl

namespace Located

variable (h : Located fs place tree)

include h

/-- What is found below a place is what is told in the tree that is there, unless the path is too
long. -/
theorem status_spot (hup : ".." ∉ x) (follow : Bool) :
    (fs.status (spot place x) follow).map Prod.snd =
      if TooLong (spot place x) then .error .nameTooLong else told tree follow x := by
  have hfront : stride fs.root true [] place = .ok (.arrived (.found place)) := by
    refine stride_of_at? h.isEntryName h.at?_eq fun _ target heq => h.plain.noLink [] target ?_
    rw [Node.at?_nil, heq]
  have hstride : stride fs.root follow [] (place ++ x) =
      (stride tree follow [] x).map (Stride.below place) := by
    rw [stride_append_of_found hfront, ← stride_below h.at?_eq hup [], List.append_nil]
  by_cases hlong : TooLong (spot place x)
  · have hfind : fs.find (spot place x) follow = .error .nameTooLong := if_pos hlong
    rw [status, hfind, if_pos hlong]
    rfl
  · have hfind : fs.find (spot place x) follow = walk fs.root follow maxLinks [] (place ++ x) :=
      if_neg hlong
    rw [status, hfind, if_neg hlong, told]
    cases hs : stride tree follow [] x with
    | error e =>
      rw [hs] at hstride
      rw [walk.eq_def, hstride, walk.eq_def, hs]
      rfl
    | ok s =>
      rw [hs] at hstride
      cases s with
      | atLink above target rest => exact absurd hs h.plain.stride_ne_atLink
      | arrived a =>
        rw [walk_of_arrived _ hstride, walk_of_arrived _ hs]
        cases a with
        | vacant names => rfl
        | found names =>
          simp only [arrivedAt, Arrival.below, at?_below h.at?_eq]
          cases tree.at? names <;> rfl

/-- What names that lead down are found to lead to below a place is at these names. -/
theorem of_status (hdown : ∀ name ∈ x, name ≠ "." ∧ name ≠ "..") {found : List String × Node}
    (hstatus : fs.status (spot place x) follow = .ok found) :
    tree.at? x = some found.2 ∧ ¬TooLong (spot place x) := by
  have htold := h.status_spot (fun hup => (hdown _ hup).2 rfl) follow
  rw [hstatus] at htold
  split at htold
  · cases htold
  · next hlong => exact ⟨h.plain.at?_of_told hdown htold.symm, hlong⟩

theorem isSome_of_hasEntry (hdown : ∀ name ∈ x, name ≠ "." ∧ name ≠ "..")
    (hentry : fs.hasEntry (spot place x) = true) : (tree.at? x).isSome := by
  rw [hasEntry, Bool.and_eq_true] at hentry
  cases hstatus : fs.status (spot place x) false with
  | error e => simp [hstatus, Except.toBool] at hentry
  | ok found => simp [(h.of_status hdown hstatus).1]

theorem at?_of_node? (hdown : ∀ name ∈ x, name ≠ "." ∧ name ≠ "..")
    (hnode : fs.node? (spot place x) = some node) : tree.at? x = some node := by
  rw [node?] at hnode
  split at hnode
  · cases hnode
  · cases hstatus : fs.status (spot place x) true with
    | error e => simp [hstatus] at hnode
    | ok found =>
      rw [(h.of_status hdown hstatus).1]
      simpa [hstatus] using hnode

theorem of_leadsTo (hdown : ∀ name ∈ x, name ≠ "." ∧ name ≠ "..") {kind : Node → Bool}
    (hkind : fs.leadsTo kind (spot place x) = .ok true) :
    ∃ node, tree.at? x = some node ∧ kind node = true ∧ ¬TooLong (spot place x) := by
  rw [leadsTo] at hkind
  split at hkind
  · cases hkind
  · cases hstatus : fs.status (spot place x) true with
    | error e =>
      rw [hstatus] at hkind
      dsimp only at hkind
      split at hkind <;> cases hkind
    | ok found =>
      obtain ⟨hat, hlong⟩ := h.of_status hdown hstatus
      exact ⟨found.2, hat, by simpa [hstatus] using hkind, hlong⟩

theorem hasNul_spot : hasNul (spot place x) = hasNul ⟨.root, x⟩ := by
  have hplace : hasNul ⟨.root, place⟩ = false :=
    hasNul_eq_false fun name hname => (h.isEntryName name hname).nul_not_mem
  rw [hasNul, hasNul, spot, List.any_append]
  exact (congrArg (· || _) hplace).trans (Bool.false_or _)

/-- What is at names is told of them below a place, unless the path is too long. -/
theorem leadsTo_spot (hnode : tree.at? x = some node) (kind : Node → Bool) :
    fs.leadsTo kind (spot place x) =
      if TooLong (spot place x) then .error ⟨.nameTooLong, toString (spot place x)⟩
      else .ok (kind node) := by
  have hentry := h.plain.isEntryName_of_at? hnode
  have hnul : hasNul (spot place x) = false := by
    rw [h.hasNul_spot]
    exact hasNul_eq_false fun name hname => (hentry name hname).nul_not_mem
  have htold := h.status_spot (fun hup => (hentry _ hup).ne_up rfl) true
  rw [h.plain.told_of_at? hnode] at htold
  rw [leadsTo, hnul, if_neg (by decide)]
  split_ifs at htold ⊢
  · obtain heq := map_eq_error_iff.mp htold
    rw [heq]
    rfl
  · obtain ⟨found, heq, rfl⟩ := map_eq_ok_iff.mp htold
    rw [heq]

theorem resolved_spot (hnode : tree.at? x = some node) (hlong : ¬TooLong (spot place x)) :
    fs.resolved (spot place x) = spot place x := by
  have hnames : ∀ name ∈ place ++ x, IsEntryName name := fun name hname =>
    (List.mem_append.mp hname).elim (h.isEntryName name) (h.plain.isEntryName_of_at? hnode name)
  have hdirect : Direct fs (spot place x) :=
    direct_of_at? hnames ((at?_below h.at?_eq x).trans hnode)
      (fun target heq => h.plain.noLink x target (heq ▸ hnode)) (Nat.not_lt.mp hlong)
  rw [resolved, resolve_of_direct hdirect]

end Located

/-! ## Two places -/

/-- The names that lead to the nodes of a tree, with those that are asked for and what leads to
these. -/
def Known (tree : Node) (asked : List (List String)) (x : List String) : Prop :=
  (tree.at? x).isSome ∨ ∃ names ∈ asked, x <+: names

theorem Known.of_prefix {asked : List (List String)} {front : List String} (h : Known tree asked x)
    (hfront : front <+: x) : Known tree asked front := by
  rcases h with hnode | ⟨names, hnames, hlonger⟩
  · obtain ⟨below, rfl⟩ := hfront
    rw [Node.at?_append] at hnode
    obtain ⟨node, hfound, -⟩ := Option.bind_eq_some_iff.mp (Option.eq_some_of_isSome hnode)
    exact .inl (hfound ▸ rfl)
  · exact .inr ⟨names, hnames, hfront.trans hlonger⟩

/-- Two file systems with the same tree in two places, where the paths of what is known below them are
too long in both places or in none. -/
structure Relocated (fs fs' : FileSystem) (place place' : List String) (tree : Node)
    (asked : List (List String)) : Prop where
  here : Located fs place tree
  there : Located fs' place' tree
  down : ∀ names ∈ asked, ∀ name ∈ names, name ≠ "." ∧ name ≠ ".."
  tooLong_iff : ∀ x, Known tree asked x → (TooLong (spot place x) ↔ TooLong (spot place' x))

namespace Relocated

variable {asked : List (List String)} (h : Relocated fs fs' place place' tree asked)

include h

theorem down_of_known (hx : Known tree asked x) : ∀ name ∈ x, name ≠ "." ∧ name ≠ ".." := by
  intro name hname
  rcases hx with hnode | ⟨names, hnames, hfront⟩
  · obtain ⟨node, hnode⟩ := Option.isSome_iff_exists.mp hnode
    have hentry := h.here.plain.isEntryName_of_at? hnode name hname
    exact ⟨hentry.isName.ne_dot, hentry.ne_up⟩
  · exact h.down names hnames name (hfront.subset hname)

theorem hasNul_eq : hasNul (spot place x) = hasNul (spot place' x) := by
  rw [h.here.hasNul_spot, h.there.hasNul_spot]

theorem status_eq (hx : Known tree asked x) (follow : Bool) :
    (fs.status (spot place x) follow).map Prod.snd =
      (fs'.status (spot place' x) follow).map Prod.snd := by
  have hup : ".." ∉ x := fun hup => (h.down_of_known hx _ hup).2 rfl
  rw [h.here.status_spot hup, h.there.status_spot hup, if_congr (h.tooLong_iff x hx) rfl rfl]

/-- What is known leads to nodes of the same kinds in both places. -/
theorem leadsTo_eq (hx : Known tree asked x) (kind : Node → Bool) :
    (fs.leadsTo kind (spot place x)).toOption = (fs'.leadsTo kind (spot place' x)).toOption := by
  have hstatus := h.status_eq hx true
  rw [leadsTo, leadsTo, h.hasNul_eq]
  split
  · rfl
  · cases hs : fs.status (spot place x) true <;> cases hs' : fs'.status (spot place' x) true <;>
      simp only [hs, hs', Except.map, Except.ok.injEq, Except.error.injEq, reduceCtorEq] at hstatus
    · subst hstatus
      dsimp only
      split <;> rfl
    · dsimp only
      rw [hstatus]

theorem node?_eq (hx : Known tree asked x) :
    fs.node? (spot place x) = fs'.node? (spot place' x) := by
  have hstatus := h.status_eq hx true
  rw [node?, node?, h.hasNul_eq]
  split
  · rfl
  · cases hs : fs.status (spot place x) true <;> cases hs' : fs'.status (spot place' x) true <;>
      simp_all [Except.map]

/-- Names below a place lead to a node in both places or in none, also names that are not known. -/
theorem hasEntry_eq (hdown : ∀ name ∈ x, name ≠ "." ∧ name ≠ "..") :
    fs.hasEntry (spot place x) = fs'.hasEntry (spot place' x) := by
  cases hnode : tree.at? x with
  | none =>
    -- The path may be too long in one place only, but then it leads nowhere in the other.
    have habsent {fs : FileSystem} {place : List String} (hplace : Located fs place tree) :
        fs.hasEntry (spot place x) = false := by
      refine Bool.eq_false_iff.mpr fun hentry => ?_
      exact absurd (hplace.isSome_of_hasEntry hdown hentry) (by simp [hnode])
    rw [habsent h.here, habsent h.there]
  | some node =>
    have hstatus := h.status_eq (.inl (hnode ▸ rfl) : Known tree asked x) false
    rw [hasEntry, hasEntry, h.hasNul_eq]
    cases hs : fs.status (spot place x) false <;> cases hs' : fs'.status (spot place' x) false <;>
      simp_all [Except.map, Except.toBool]

/-- The directory at names that are known has the same names in both places, and these are known. -/
theorem namesIn_eq (hx : Known tree asked x) (dirsOnly : Bool) :
    fs.namesIn (spot place x) dirsOnly = fs'.namesIn (spot place' x) dirsOnly ∧
      ∀ name ∈ fs.namesIn (spot place x) dirsOnly, (tree.at? (x ++ [name])).isSome := by
  rw [namesIn, namesIn, entriesAt, entriesAt, ← h.node?_eq hx]
  cases hnode : fs.node? (spot place x) with
  | none => exact ⟨rfl, by simp⟩
  | some node =>
    have hat := h.here.at?_of_node? (h.down_of_known hx) hnode
    have hchild {e : String × Node} (he : e ∈ node.entries) : (tree.at? (x ++ [e.1])).isSome :=
      h.here.plain.isSome_of_mem_entries hat he
    refine ⟨List.filterMap_congr fun e he => ?_, fun name hname => ?_⟩
    · have hknown : Known tree asked (x ++ [e.1]) := .inl (hchild he)
      dsimp only
      rw [child_spot, child_spot, isDir, isDir, h.leadsTo_eq hknown]
    · obtain ⟨e, he, hsome⟩ := List.mem_filterMap.mp hname
      simp only [Option.ite_none_right_eq_some, Option.some.injEq] at hsome
      exact hsome.2 ▸ hchild he

end Relocated

/-! ## Related paths -/

/-- Two paths below two places with the same names, which are known. -/
def SameSpot (place place' : List String) (tree : Node) (asked : List (List String)) (p p' : Path) :
    Prop :=
  ∃ x, Known tree asked x ∧ p = spot place x ∧ p' = spot place' x

theorem exists_map_spot {asked : List (List String)} {paths paths' : List Path}
    (h : List.Forall₂ (SameSpot place place' tree asked) paths paths') :
    ∃ names : List (List String), paths = names.map (spot place) ∧ paths' = names.map (spot place') := by
  induction h with
  | nil => exact ⟨[], rfl, rfl⟩
  | cons hp _ ih =>
    obtain ⟨x, -, rfl, rfl⟩ := hp
    obtain ⟨names, rfl, rfl⟩ := ih
    exact ⟨x :: names, rfl, rfl⟩

/-- What two functions make of the same items is related if it is for each of them. -/
theorem forall₂_flatMap {α β γ : Type} {R : β → γ → Prop} {items : List α} {f : α → List β}
    {g : α → List γ} (h : ∀ a ∈ items, List.Forall₂ R (f a) (g a)) :
    List.Forall₂ R (items.flatMap f) (items.flatMap g) := by
  refine List.rel_flatMap (R := fun a b => a = b ∧ a ∈ items)
    (List.forall₂_same.mpr fun a ha => ⟨rfl, ha⟩) ?_
  rintro a _ ⟨rfl, ha⟩
  exact h a ha

theorem Relocated.forall₂_visibleBelow {asked : List (List String)}
    (h : Relocated fs fs' place place' tree asked) (hx : Known tree asked x) (depth : Nat)
    (dirsOnly : Bool) : List.Forall₂ (SameSpot place place' tree asked)
      (fs.visibleBelow depth (spot place x) dirsOnly)
      (fs'.visibleBelow depth (spot place' x) dirsOnly) := by
  induction depth generalizing x with
  | zero => exact .nil
  | succ depth ih =>
    obtain ⟨heq, hnames⟩ := h.namesIn_eq hx dirsOnly
    rw [visibleBelow, visibleBelow, ← heq]
    refine forall₂_flatMap fun name hname => ?_
    have hchild : Known tree asked (x ++ [name]) := .inl (hnames name (List.mem_of_mem_filter hname))
    rw [child_spot, child_spot]
    exact .cons ⟨_, hchild, rfl, rfl⟩ (ih hchild)

end ElmSuite.FileSystem
