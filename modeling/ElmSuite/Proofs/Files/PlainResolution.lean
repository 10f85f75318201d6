import ElmSuite.Proofs.Files.Plain

/-!
# Resolving paths in trees without links

In a tree without links, the canonical path of what a path leads to is that of the names at which its
lookup ends. A relative path is resolved from the working directory: the names that lead up stand in
front of what is reached until the names of the working directory are put before them.
-/

namespace ElmSuite.FileSystem

variable {root node : Node} {fs : FileSystem} {place names rest : List String}

/-! ## Names that lead up -/

theorem Plain.withoutUps_of_at? (h : Plain root) (hnode : root.at? names = some node) :
    withoutUps names = names :=
  withoutUps_of_not_mem fun hup => (h.isEntryName_of_at? hnode _ hup).ne_up rfl

/-- A lookup without links ends where the text of its names leads. -/
theorem withoutUps_of_stride {front q : List String} (hnames : ∀ name ∈ names, Path.IsName name)
    (hfront : withoutUps front = place)
    (h : stride root true place names = .ok (.arrived (.found q))) :
    withoutUps (front ++ names) = q := by
  induction names generalizing place front with
  | nil =>
    obtain rfl : place = q := by cases h; rfl
    rw [List.append_nil, hfront]
  | cons name rest ih =>
    obtain ⟨hname, hrest⟩ := List.forall_mem_cons.mp hnames
    have happend : front ++ name :: rest = (front ++ [name]) ++ rest := by simp
    have hnext := withoutUps_append_singleton front name
    rw [happend]
    rw [hfront] at hnext
    obtain ⟨es, hdir, ⟨hself, -⟩ | ⟨hup, h⟩ | ⟨⟨-, hup, -⟩, node, -, -, h⟩⟩ := stride_found_cases h
    · exact absurd hself hname.ne_dot
    · exact ih hrest (by rw [hnext, if_pos hup]) h
    · exact ih hrest (by rw [hnext, if_neg hup]) h

/-- A lookup of names and one more that ends at a node has passed the first names. -/
theorem exists_stride_of_append_singleton {start front q : List String} {last : String}
    (h : stride root true start (front ++ [last]) = .ok (.arrived (.found q))) :
    ∃ middle, stride root true start front = .ok (.arrived (.found middle)) := by
  induction front generalizing start with
  | nil => exact ⟨start, rfl⟩
  | cons name front ih =>
    obtain ⟨es, hdir, ⟨hself, h⟩ | ⟨hup, h⟩ | ⟨⟨hself, hup, hlong⟩, node, hnode, hlink, h⟩⟩ :=
      stride_found_cases h
    · rw [stride_cons hdir, if_pos hself]
      exact ih h
    · rw [stride_cons hdir, if_neg (hup ▸ by decide), if_pos hup]
      exact ih h
    · rw [stride_cons_of_node hdir hself hup hlong hnode hlink]
      exact ih h

/-! ## Places that are reached -/

/-- A place that a resolution has reached without links: a path that leads to a node of the tree, which
is canonical if it is absolute. -/
structure Reached (fs : FileSystem) (reached : Path) (q : List String) : Prop where
  written : IsWritten reached
  nulFree : hasNul reached = false
  canonical : reached.isAbsolute = true → ".." ∉ reached.names
  stride : ∃ start, fs.start? reached.isAbsolute = some start ∧
    stride fs.root true start reached.names = .ok (.arrived (.found q))

namespace Reached

variable {reached : Path} {q : List String} {name : String}

theorem child (h : Reached fs reached q) (hplain : Plain fs.root) (hname : IsEntryName name)
    (hnode : fs.root.at? (q ++ [name]) = some node) :
    Reached fs (reached.child name) (q ++ [name]) := by
  obtain ⟨start, hstart, hstride⟩ := h.stride
  refine ⟨h.written.child hname.isName, hasNul_child h.nulFree hname.nul_not_mem,
    fun habsolute hup => ?_, start, hstart, ?_⟩
  · rcases List.mem_append.mp hup with hup | hup
    · exact h.canonical habsolute hup
    · exact hname.ne_up (List.mem_singleton.mp hup).symm
  · rw [Path.child, stride_append_of_found hstride]
    refine stride_of_at? (List.forall_mem_singleton.mpr hname) hnode fun _ target heq => ?_
    exact hplain.noLink _ target (heq ▸ hnode)

theorem up (h : Reached fs reached q) (hrelative : reached.isAbsolute = false)
    {es : List (String × Node)} (hdir : fs.root.at? q = some (.dir es)) :
    Reached fs (reached.child "..") q.dropLast := by
  obtain ⟨start, hstart, hstride⟩ := h.stride
  refine ⟨h.written.child ⟨by decide, by decide, by decide⟩,
    hasNul_child h.nulFree (by decide), fun habsolute => ?_, start, hstart, ?_⟩
  · cases hrelative.symm.trans habsolute
  · rw [Path.child, stride_append_of_found hstride, stride_cons hdir, if_neg (by decide),
      if_pos rfl]
    rfl

/-- The directory above a directory is reached too, by a path that may be longer by `..`. -/
theorem above (h : Reached fs reached q) (hplain : Plain fs.root) {es : List (String × Node)}
    (hdir : fs.root.at? q = some (.dir es)) :
    Reached fs (above reached) q.dropLast ∧
      width (FileSystem.above reached).names ≤ width reached.names + width [".."] := by
  obtain ⟨anchor, names⟩ := reached
  obtain ⟨start, hstart, hstride⟩ := h.stride
  -- A relative path that has no name left, or that ends in `..`, goes on leading up.
  rcases List.eq_nil_or_concat' names with rfl | ⟨front, last, rfl⟩
  · obtain rfl : start = q := by cases hstride; rfl
    cases habsolute : (⟨anchor, []⟩ : Path).isAbsolute with
    | true =>
      obtain rfl : [] = start := by
        rw [habsolute] at hstart
        exact Option.some.inj hstart
      have habove : FileSystem.above ⟨anchor, []⟩ = ⟨anchor, []⟩ := if_pos habsolute
      rw [habove]
      exact ⟨h, Nat.le_add_right ..⟩
    | false =>
      have habove : FileSystem.above ⟨anchor, []⟩ = (⟨anchor, []⟩ : Path).child ".." :=
        if_neg (by simp [habsolute])
      rw [habove]
      exact ⟨h.up habsolute hdir, Nat.le_of_eq (width_append _)⟩
  · by_cases hlast : last = ".."
    · have habove : FileSystem.above ⟨anchor, front ++ [last]⟩ =
          (⟨anchor, front ++ [last]⟩ : Path).child ".." := by
        simp [FileSystem.above, hlast]
      have hrelative : (⟨anchor, front ++ [last]⟩ : Path).isAbsolute = false :=
        Bool.eq_false_iff.mpr fun habsolute => h.canonical habsolute (by simp [hlast])
      rw [habove]
      exact ⟨h.up hrelative hdir, Nat.le_of_eq (width_append _)⟩
    · have habove : FileSystem.above ⟨anchor, front ++ [last]⟩ = ⟨anchor, front⟩ := by
        simp [FileSystem.above, hlast, Path.parent]
      obtain ⟨middle, hmiddle⟩ := exists_stride_of_append_singleton hstride
      have hfront : ∀ {n}, n ∈ front → n ∈ front ++ [last] := fun hn => List.mem_append_left _ hn
      have hq : q.dropLast = middle := by
        have hname := h.written.isName last (by simp)
        rw [stride_append_of_found hmiddle] at hstride
        obtain ⟨es, hes⟩ := exists_dir_of_stride_cons hstride
        have hups : withoutUps middle = middle := hplain.withoutUps_of_at? hes
        have hends := withoutUps_of_stride (List.forall_mem_singleton.mpr hname) hups hstride
        rw [withoutUps_append_singleton, if_neg hlast, hups] at hends
        rw [← hends, List.dropLast_concat]
      rw [habove, hq]
      refine ⟨⟨⟨h.written.anchor, fun n hn => h.written.isName n (hfront hn)⟩, ?_,
        fun habsolute hup => h.canonical habsolute (hfront hup), start, hstart, hmiddle⟩, ?_⟩
      · have hnul := h.nulFree
        simp only [hasNul, List.any_append, Bool.or_eq_false_iff] at hnul ⊢
        exact hnul.1
      · dsimp only
        rw [width_append]
        omega

theorem entryAt_child (h : Reached fs reached q) (hname : IsEntryName name)
    (hnode : fs.root.at? (q ++ [name]) = some node)
    (hroom : width reached.names + width [name] ≤ room reached.anchor) :
    fs.entryAt (reached.child name) = .ok node := by
  obtain ⟨start, hstart, hstride⟩ := h.stride
  have hshort : ¬TooLong (reached.child name) :=
    not_tooLong_iff.mpr (Nat.le_trans (Nat.le_of_eq (width_append _)) hroom)
  have hchild : FileSystem.stride fs.root false start (reached.names ++ [name]) =
      .ok (.arrived (.found (q ++ [name]))) := by
    rw [stride_append_of_found hstride]
    exact stride_of_at? (List.forall_mem_singleton.mpr hname) hnode (fun hfollow => by cases hfollow)
  refine entryAt_of_find (hasNul_child h.nulFree hname.nul_not_mem) ?_ hnode
  exact find_eq_ok_iff.mpr ⟨hshort, start, hstart, walk_of_arrived _ hchild⟩

theorem resolves (h : Reached fs reached q) (hplain : Plain fs.root) {q' : List String}
    (hnames : ∀ name ∈ names, Path.IsName name)
    (hstride : FileSystem.stride fs.root true q names = .ok (.arrived (.found q')))
    (hroom : width reached.names + width names ≤ room reached.anchor) (depth : Nat)
    (opened : List Path) : ∃ reached', fs.Resolves depth opened reached names reached' ∧
      Reached fs reached' q' := by
  induction names generalizing reached q with
  | nil =>
    obtain rfl : q = q' := by cases hstride; rfl
    exact ⟨reached, .arrived, h⟩
  | cons name rest ih =>
    obtain ⟨hname, hrest⟩ := List.forall_mem_cons.mp hnames
    rw [width_cons] at hroom
    obtain ⟨es, hdir, ⟨hself, -⟩ | ⟨rfl, hnext⟩ | ⟨⟨-, hup, -⟩, node, hnode, hlink, hnext⟩⟩ :=
      stride_found_cases hstride
    · exact absurd hself hname.ne_dot
    · obtain ⟨habove, hwidth⟩ := h.above hplain hdir
      have hroom' : width (FileSystem.above reached).names + width rest ≤
          room (FileSystem.above reached).anchor := by
        rw [width_cons, width_nil] at hwidth
        rw [anchor_above]
        omega
      obtain ⟨reached', hresolves, hreached⟩ := ih habove hrest hnext hroom'
      exact ⟨reached', .up hresolves, hreached⟩
    · have hentryName : IsEntryName name := hplain.isEntryName_of_at? hnode name (by simp)
      have hroom' : width reached.names + width [name] + width rest ≤ room reached.anchor := by
        rw [width_cons, width_nil]
        omega
      have hentry := h.entryAt_child hentryName hnode (Nat.le_trans (Nat.le_add_right ..) hroom')
      rw [← width_append] at hroom'
      obtain ⟨reached', hresolves, hreached⟩ :=
        ih (h.child hplain hentryName hnode) hrest hnext hroom'
      exact ⟨reached', .down hup hentry hlink hresolves, hreached⟩

theorem fromWorkingDirectory_eq (h : Reached fs reached q) (hplain : Plain fs.root)
    (hnode : fs.root.at? q = some node) : fs.fromWorkingDirectory reached = ⟨.root, q⟩ := by
  obtain ⟨anchor, names⟩ := reached
  obtain ⟨start, hstart, hstride⟩ := h.stride
  cases habsolute : (⟨anchor, names⟩ : Path).isAbsolute with
  | true =>
    obtain rfl : [] = start := by
      rw [habsolute] at hstart
      exact Option.some.inj hstart
    have hq : withoutUps ([] ++ names) = q := withoutUps_of_stride h.written.isName rfl hstride
    rw [List.nil_append, withoutUps_of_not_mem (h.canonical habsolute)] at hq
    have hanchor : anchor = .root := by
      cases anchor with
      | root => rfl
      | here => cases habsolute
      | doubleRoot => exact absurd rfl h.written.anchor
    rw [fromWorkingDirectory, if_pos habsolute, hanchor]
    exact congrArg _ hq
  | false =>
    rw [habsolute] at hstart
    have hdirectory : fs.workingDirectory = some start := hstart
    have hups : withoutUps start = start := by
      cases names with
      | nil =>
        obtain rfl : start = q := by cases hstride; rfl
        exact hplain.withoutUps_of_at? hnode
      | cons name rest =>
        obtain ⟨es, hdir⟩ := exists_dir_of_stride_cons hstride
        exact hplain.withoutUps_of_at? hdir
    rw [fromWorkingDirectory, if_neg (by simp [habsolute]), hdirectory, Option.getD_some,
      withoutUps_of_stride h.written.isName hups hstride]

end Reached

/-- The canonical path of what a path leads to in a plain tree is that of the names at which the lookup
ends. -/
theorem Plain.resolve_of_find (h : Plain fs.root) {p : Path} {q : List String}
    (hnames : ∀ name ∈ p.names, Path.IsName name)
    (hfind : fs.find p true = .ok (.found q)) (hnode : fs.root.at? q = some node) :
    fs.resolve p = .ok ⟨.root, q⟩ := by
  obtain ⟨start, hstart, hstride⟩ := h.stride_of_find hfind
  have hanchor : (resolveStart p).isAbsolute = p.isAbsolute := by
    rw [resolveStart]
    cases p.isAbsolute <;> rfl
  have hreached : Reached fs (resolveStart p) start := by
    refine ⟨⟨?_, by simp [resolveStart]⟩, rfl, by simp [resolveStart], start, ?_, rfl⟩
    · rw [resolveStart]
      split <;> simp
    · rw [hanchor, hstart]
  have hroom : width (resolveStart p).names + width p.names ≤ room (resolveStart p).anchor := by
    have hanchor : room p.anchor ≤ room (resolveStart p).anchor := by
      obtain ⟨anchor, names⟩ := p
      cases anchor with
      | here | root => exact Nat.le_refl _
      | doubleRoot => exact (by decide : room .doubleRoot ≤ room .root)
    rw [resolveStart, width_nil, Nat.zero_add]
    exact Nat.le_trans (not_tooLong_iff.mp (not_tooLong_of_find hfind)) hanchor
  obtain ⟨reached, hresolves, hq⟩ := hreached.resolves h hnames hstride hroom fs.resolveDepth []
  exact resolve_eq_ok_iff.mpr ⟨reached, hresolves, hq.fromWorkingDirectory_eq h hnode⟩

end ElmSuite.FileSystem
