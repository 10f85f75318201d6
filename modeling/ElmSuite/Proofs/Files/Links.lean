import Mathlib.Data.List.Perm.Subperm
import ElmSuite.Files.Tree

/-!
# Counting links

Every link that names lead to is counted, and the count does not fall when a node is put
into a directory in the place of none, or of one that is no link and holds none.
-/

namespace ElmSuite.Node

/-- Whether a node is a link. -/
def isLink : Node → Bool
  | link _ => true
  | _ => false

/-- How many links there are at a node and below. -/
def linksFrom (node : Node) : Nat := (if node.isLink then 1 else 0) + node.linkCount

theorem linkCount_eq (node : Node) :
    node.linkCount = node.descendants.countP fun d => d.2.isLink :=
  List.countP_eq_length_filter.symm

theorem linkCount_cons (name : String) (node : Node) (es : List (String × Node)) :
    (dir ((name, node) :: es)).linkCount = node.linksFrom + (dir es).linkCount := by
  rw [linkCount_eq, descendants, entryDescendants, List.countP_append, List.countP_cons,
    List.countP_map, linksFrom, linkCount_eq node, linkCount_eq (dir es), descendants]
  exact congrArg (· + _) (Nat.add_comm ..)

theorem linkCount_of_entries {node : Node} (h : node.entries = []) : node.linkCount = 0 := by
  cases node with
  | file content executable => rfl
  | link target => rfl
  | dir es => rw [show es = [] from h]; rfl

theorem linksFrom_eq_zero {node : Node} (hentries : node.entries = [])
    (hlink : ∀ target, node ≠ .link target) : node.linksFrom = 0 := by
  cases node with
  | link target => exact absurd rfl (hlink target)
  | file | dir => exact (Nat.zero_add _).trans (linkCount_of_entries hentries)

/-! ## Putting a node -/

theorem linkCount_le_setEntry {name : String} {node : Node} {es : List (String × Node)}
    (h : ∀ old, es.lookup name = some old → old.linksFrom ≤ node.linksFrom) :
    (dir es).linkCount ≤ (dir (setEntry name node es)).linkCount := by
  induction es with
  | nil => exact Nat.zero_le _
  | cons e rest ih =>
    obtain ⟨n, x⟩ := e
    rw [setEntry]
    split
    · next heq =>
      subst heq
      rw [linkCount_cons, linkCount_cons]
      exact Nat.add_le_add_right (h x (by simp)) _
    · next hne =>
      rw [linkCount_cons, linkCount_cons]
      refine Nat.add_le_add_left (ih fun old hold => h old ?_) _
      rwa [List.lookup_cons, beq_false_of_ne (Ne.symm hne)]

/-- A node that is put into a directory takes no link away where there is none to take. -/
theorem linkCount_le_put {root node : Node} {above : List String} {last : String}
    {es : List (String × Node)} (habove : root.at? above = some (.dir es))
    (hold : ∀ old, es.lookup last = some old → old.linksFrom = 0) :
    root.linkCount ≤ (root.put (above ++ [last]) node).linkCount := by
  induction above generalizing root with
  | nil =>
    rw [at?_nil, Option.some.injEq] at habove
    subst habove
    rw [List.nil_append, put]
    exact linkCount_le_setEntry fun old hlookup => by rw [hold old hlookup]; exact Nat.zero_le _
  | cons first above ih =>
    obtain ⟨child, hchild, hbelow⟩ := Option.bind_eq_some_iff.mp habove
    cases root with
    | file | link => cases hchild
    | dir entries =>
      rw [List.cons_append, put, hchild, Option.getD_some]
      refine linkCount_le_setEntry fun old hlookup => ?_
      obtain rfl : child = old := Option.some.inj (hchild.symm.trans hlookup)
      have hle := ih hbelow
      have hlink : child.isLink = false := by
        cases child with
        | link target => cases above <;> cases hbelow
        | file | dir => rfl
      rw [linksFrom, linksFrom, hlink]
      simp only [Bool.false_eq_true, if_false]
      omega

/-! ## Links that names lead to -/

theorem mem_entryDescendants {es : List (String × Node)} {name : String} {x : Node}
    (h : es.lookup name = some x) {names : List String} {node : Node} :
    ([name], x) ∈ entryDescendants es ∧
      ((names, node) ∈ x.descendants → (name :: names, node) ∈ entryDescendants es) := by
  induction es with
  | nil => cases h
  | cons e rest ih =>
    obtain ⟨n, y⟩ := e
    rw [List.lookup_cons] at h
    rw [entryDescendants]
    split at h
    · next heq =>
      obtain rfl : y = x := Option.some.inj h
      obtain rfl : name = n := eq_of_beq heq
      refine ⟨by simp, fun hnode => List.mem_append_left _ (List.mem_cons_of_mem _ ?_)⟩
      exact List.mem_map.mpr ⟨_, hnode, rfl⟩
    · obtain ⟨hself, hbelow⟩ := ih h
      refine ⟨List.mem_append_right _ hself, fun hnode => List.mem_append_right _ (hbelow hnode)⟩

/-- What names lead to is listed with them. -/
theorem mem_descendants_of_at? {root node : Node} {names : List String} (hne : names ≠ [])
    (h : root.at? names = some node) : (names, node) ∈ root.descendants := by
  induction names generalizing root with
  | nil => exact absurd rfl hne
  | cons name rest ih =>
    obtain ⟨child, hchild, hbelow⟩ := Option.bind_eq_some_iff.mp h
    cases root with
    | file | link => cases hchild
    | dir es =>
      rw [descendants]
      cases rest with
      | nil =>
        obtain rfl : child = node := by rwa [at?_nil, Option.some.injEq] at hbelow
        exact (@mem_entryDescendants es name child hchild [] child).1
      | cons below rest => exact (mem_entryDescendants hchild).2 (ih (by simp) hbelow)

/-- There are at most as many links as are counted. -/
theorem length_le_linkCount {root : Node} {places : List (List String)} (hnodup : places.Nodup)
    (h : ∀ names ∈ places, names ≠ [] ∧ ∃ target, root.at? names = some (.link target)) :
    places.length ≤ root.linkCount := by
  have hsubset : places ⊆ (root.descendants.filter fun d => d.2.isLink).map Prod.fst := by
    intro names hnames
    obtain ⟨hne, target, htarget⟩ := h names hnames
    exact List.mem_map.mpr ⟨(names, .link target),
      List.mem_filter.mpr ⟨mem_descendants_of_at? hne htarget, rfl⟩, rfl⟩
  have hle := (hnodup.subperm hsubset).length_le
  rwa [List.length_map] at hle

end ElmSuite.Node
