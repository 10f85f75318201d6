import Mathlib.Data.List.Forall2
import ElmSuite.Proofs.Json.Numbers
import ElmSuite.Proofs.Json.Strings
import ElmSuite.Proofs.Results

/-!
# JSON values as they are written and read

A value that was read, and written, is read again as the same value but for its doubles,
of which only that they are doubles is shown here.
-/

namespace ElmSuite

namespace JsonValue

/-- What holds of all values holds of a value if it holds of its parts. -/
@[elab_as_elim]
theorem induction {motive : JsonValue → Prop} (null : motive .null) (bool : ∀ b, motive (.bool b))
    (integer : ∀ n, motive (.integer n)) (double : ∀ x, motive (.double x))
    (string : ∀ s, motive (.string s))
    (array : ∀ xs : List JsonValue, (∀ x ∈ xs, motive x) → motive (.array xs))
    (object : ∀ fs : List (CodePoints × JsonValue), (∀ f ∈ fs, motive f.2) → motive (.object fs)) :
    ∀ v, motive v
  | .null => null
  | .bool b => bool b
  | .integer n => integer n
  | .double x => double x
  | .string s => string s
  | .array xs => array xs fun x _ => induction null bool integer double string array object x
  | .object fs => object fs fun f _ => induction null bool integer double string array object f.2
termination_by v => sizeOf v
decreasing_by
  · have := List.sizeOf_lt_of_mem ‹x ∈ xs›
    simp only [JsonValue.array.sizeOf_spec]
    omega
  · have := List.sizeOf_lt_of_mem ‹f ∈ fs›
    obtain ⟨k, v⟩ := f
    simp only [Prod.mk.sizeOf_spec, JsonValue.object.sizeOf_spec] at this ⊢
    omega

/-- A value that can be read: its integers are not too long, its strings are sound, and the keys of its
objects differ. -/
inductive Sound : JsonValue → Prop
  | null : Sound .null
  | bool (b : Bool) : Sound (.bool b)
  | integer {n : Int} (h : (Nat.toDigits 10 n.natAbs).length ≤ JsonReader.maxDigits) :
      Sound (.integer n)
  | double (x : Double) : Sound (.double x)
  | string {s : CodePoints} (h : s.Sound) : Sound (.string s)
  | array {xs : List JsonValue} (h : ∀ x ∈ xs, Sound x) : Sound (.array xs)
  | object {fs : List (CodePoints × JsonValue)} (hkeys : ∀ f ∈ fs, CodePoints.Sound f.1)
      (hnodup : (fs.map Prod.fst).Nodup) (h : ∀ f ∈ fs, Sound f.2) : Sound (.object fs)

/-- Two values that are equal but for their doubles. -/
inductive Like : JsonValue → JsonValue → Prop
  | null : Like .null .null
  | bool (b : Bool) : Like (.bool b) (.bool b)
  | integer (n : Int) : Like (.integer n) (.integer n)
  | double (x y : Double) : Like (.double x) (.double y)
  | string (s : CodePoints) : Like (.string s) (.string s)
  | array {xs ys : List JsonValue} (h : List.Forall₂ Like xs ys) : Like (.array xs) (.array ys)
  | object {fs gs : List (CodePoints × JsonValue)} (hkeys : fs.map Prod.fst = gs.map Prod.fst)
      (h : List.Forall₂ Like (fs.map Prod.snd) (gs.map Prod.snd)) : Like (.object fs) (.object gs)

/-- A value that holds no double. -/
inductive DoubleFree : JsonValue → Prop
  | null : DoubleFree .null
  | bool (b : Bool) : DoubleFree (.bool b)
  | integer (n : Int) : DoubleFree (.integer n)
  | string (s : CodePoints) : DoubleFree (.string s)
  | array {xs : List JsonValue} (h : ∀ x ∈ xs, DoubleFree x) : DoubleFree (.array xs)
  | object {fs : List (CodePoints × JsonValue)} (h : ∀ f ∈ fs, DoubleFree f.2) :
      DoubleFree (.object fs)

mutual

/-- Whether a value holds no double. -/
def isDoubleFree : JsonValue → Bool
  | double _ => false
  | array xs => areDoubleFree xs
  | object fs => fieldsDoubleFree fs
  | _ => true

/-- Whether values hold no double. -/
def areDoubleFree : List JsonValue → Bool
  | [] => true
  | x :: xs => isDoubleFree x && areDoubleFree xs

/-- Whether the values of fields hold no double. -/
def fieldsDoubleFree : List (CodePoints × JsonValue) → Bool
  | [] => true
  | (_, x) :: fs => isDoubleFree x && fieldsDoubleFree fs

end

theorem areDoubleFree_eq (xs : List JsonValue) : areDoubleFree xs = xs.all isDoubleFree := by
  induction xs with
  | nil => simp [areDoubleFree]
  | cons x xs ih => simp [areDoubleFree, ih]

theorem fieldsDoubleFree_eq (fs : List (CodePoints × JsonValue)) :
    fieldsDoubleFree fs = fs.all fun f => isDoubleFree f.2 := by
  induction fs with
  | nil => simp [fieldsDoubleFree]
  | cons f fs ih => simp [fieldsDoubleFree, ih]

theorem doubleFree_iff {v : JsonValue} : v.DoubleFree ↔ v.isDoubleFree = true := by
  induction v using JsonValue.induction with
  | null => exact ⟨fun _ => by simp [isDoubleFree], fun _ => .null⟩
  | bool b => exact ⟨fun _ => by simp [isDoubleFree], fun _ => .bool b⟩
  | integer n => exact ⟨fun _ => by simp [isDoubleFree], fun _ => .integer n⟩
  | string s => exact ⟨fun _ => by simp [isDoubleFree], fun _ => .string s⟩
  | double x => exact ⟨(fun h => by cases h), (fun h => by simp [isDoubleFree] at h)⟩
  | array xs ih =>
    rw [isDoubleFree, areDoubleFree_eq, List.all_eq_true]
    constructor
    · intro hfree x hx
      cases hfree with
      | array h => exact (ih x hx).mp (h x hx)
    · exact fun h => .array fun x hx => (ih x hx).mpr (h x hx)
  | object fs ih =>
    rw [isDoubleFree, fieldsDoubleFree_eq, List.all_eq_true]
    constructor
    · intro hfree f hf
      cases hfree with
      | object h => exact (ih f hf).mp (h f hf)
    · exact fun h => .object fun f hf => (ih f hf).mpr (h f hf)

instance (v : JsonValue) : Decidable v.DoubleFree := decidable_of_iff _ doubleFree_iff.symm

theorem eq_of_forall₂_like {xs ys : List JsonValue} (h : List.Forall₂ Like xs ys)
    (heq : ∀ x ∈ xs, ∀ y, Like x y → x = y) : xs = ys := by
  induction h with
  | nil => rfl
  | @cons x y xs ys hxy _ ih =>
    obtain ⟨hx, hxs⟩ := List.forall_mem_cons.mp heq
    rw [hx y hxy, ih hxs]

theorem fields_eq_of_like {fs gs : List (CodePoints × JsonValue)}
    (hkeys : fs.map Prod.fst = gs.map Prod.fst)
    (h : List.Forall₂ Like (fs.map Prod.snd) (gs.map Prod.snd))
    (heq : ∀ f ∈ fs, ∀ w, Like f.2 w → f.2 = w) : fs = gs := by
  have hvalues : fs.map Prod.snd = gs.map Prod.snd := by
    refine eq_of_forall₂_like h fun x hx => ?_
    obtain ⟨f, hf, rfl⟩ := List.mem_map.mp hx
    exact heq f hf
  rw [← List.zip_unzip fs, ← List.zip_unzip gs, List.unzip_fst, List.unzip_fst, List.unzip_snd,
    List.unzip_snd, hkeys, hvalues]

/-- A value without doubles is the same as each one like it. -/
theorem Like.eq {v w : JsonValue} (h : Like v w) (hfree : v.DoubleFree) : v = w := by
  induction v using JsonValue.induction generalizing w with
  | double x => cases hfree
  | null | bool | integer | string =>
    cases h
    rfl
  | array xs ih =>
    cases hfree with
    | array hfree =>
      cases h with
      | array h => rw [eq_of_forall₂_like h fun x hx y hxy => ih x hx hxy (hfree x hx)]
  | object fs ih =>
    cases hfree with
    | object hfree =>
      cases h with
      | object hkeys h => rw [fields_eq_of_like hkeys h fun f hf w hw => ih f hf hw (hfree f hf)]

/-! ## Fields -/

/-- Fields that can be read. -/
structure SoundFields (fs : List (CodePoints × JsonValue)) : Prop where
  keys : ∀ f ∈ fs, CodePoints.Sound f.1
  nodup : (fs.map Prod.fst).Nodup
  values : ∀ f ∈ fs, Sound f.2

theorem Sound.fields {fs : List (CodePoints × JsonValue)} (h : Sound (.object fs)) :
    SoundFields fs := by
  cases h with
  | object hkeys hnodup h => exact ⟨hkeys, hnodup, h⟩

theorem SoundFields.tail {f : CodePoints × JsonValue} {fs : List (CodePoints × JsonValue)}
    (h : SoundFields (f :: fs)) : SoundFields fs :=
  ⟨fun g hg => h.keys g (List.mem_cons_of_mem f hg), (List.nodup_cons.mp h.nodup).2,
    fun g hg => h.values g (List.mem_cons_of_mem f hg)⟩

theorem mem_setField {key : CodePoints} {value : JsonValue} {fs : List (CodePoints × JsonValue)}
    {f : CodePoints × JsonValue} (h : f ∈ setField key value fs) : f = (key, value) ∨ f ∈ fs := by
  induction fs with
  | nil => exact .inl (List.mem_singleton.mp h)
  | cons g rest ih =>
    obtain ⟨k, v⟩ := g
    rw [setField] at h
    split at h
    · next heq =>
      rcases List.mem_cons.mp h with rfl | h
      · exact .inl (by rw [heq])
      · exact .inr (List.mem_cons_of_mem _ h)
    · rcases List.mem_cons.mp h with rfl | h
      · exact .inr (List.mem_cons_self ..)
      · exact (ih h).imp_right (List.mem_cons_of_mem _)

theorem SoundFields.setField {fs : List (CodePoints × JsonValue)} (h : SoundFields fs)
    {key : CodePoints} (hkey : key.Sound) {value : JsonValue} (hvalue : value.Sound) :
    SoundFields (setField key value fs) where
  keys f hf := by
    rcases mem_setField hf with rfl | hf
    · exact hkey
    · exact h.keys f hf
  nodup := by
    rw [map_fst_setField]
    split
    · exact h.nodup
    · next hnot =>
      refine List.nodup_append.mpr ⟨h.nodup, by simp, fun a ha b hb => ?_⟩
      rintro rfl
      exact hnot (List.mem_singleton.mp hb ▸ ha)
  values f hf := by
    rcases mem_setField hf with rfl | hf
    · exact hvalue
    · exact h.values f hf

theorem setField_of_not_mem {key : CodePoints} {value : JsonValue}
    {fs : List (CodePoints × JsonValue)} (h : key ∉ fs.map Prod.fst) :
    setField key value fs = fs ++ [(key, value)] := by
  induction fs with
  | nil => rfl
  | cons f rest ih =>
    obtain ⟨k, v⟩ := f
    rw [List.map_cons, List.mem_cons, not_or] at h
    rw [setField, if_neg (Ne.symm h.1), ih h.2, List.cons_append]

theorem lookup_setField_of_ne {key other : CodePoints} (hne : other ≠ key) (value : JsonValue)
    (fs : List (CodePoints × JsonValue)) : (setField key value fs).lookup other = fs.lookup other := by
  induction fs with
  | nil => simp [setField, hne]
  | cons f rest ih =>
    obtain ⟨k, v⟩ := f
    rw [setField]
    split
    · next heq =>
      subst heq
      rw [List.lookup_cons, List.lookup_cons, beq_eq_false_iff_ne.mpr hne]
    · rw [List.lookup_cons, List.lookup_cons, ih]

/-- Fields that are alike have values that are alike. -/
theorem lookup_like {fs gs : List (CodePoints × JsonValue)}
    (hkeys : fs.map Prod.fst = gs.map Prod.fst)
    (h : List.Forall₂ Like (fs.map Prod.snd) (gs.map Prod.snd)) (key : CodePoints) :
    (fs.lookup key = none ∧ gs.lookup key = none) ∨
      ∃ v w, fs.lookup key = some v ∧ gs.lookup key = some w ∧ Like v w := by
  induction fs generalizing gs with
  | nil =>
    obtain rfl : gs = [] := by simpa using hkeys.symm
    exact .inl ⟨rfl, rfl⟩
  | cons f fs ih =>
    cases gs with
    | nil => simp at hkeys
    | cons g gs =>
      obtain ⟨k, v⟩ := f
      obtain ⟨k', w⟩ := g
      rw [List.map_cons, List.map_cons, List.cons.injEq] at hkeys
      obtain ⟨rfl, hkeys⟩ := hkeys
      rw [List.map_cons, List.map_cons, List.forall₂_cons] at h
      rw [List.lookup_cons, List.lookup_cons]
      cases hkey : key == k with
      | true => exact .inr ⟨v, w, rfl, rfl, h.1⟩
      | false => exact ih hkeys h.2

end JsonValue

/-! ## What is read -/

namespace JsonReader

open JsonValue

theorem sound_of_scalar {text rest : List Char} {v : JsonValue} (h : scalar text = .ok (v, rest)) :
    v.Sound := by
  have hwords : ∀ w ∈ words, w.2.Sound := by
    intro w hw
    simp only [words, List.mem_cons, List.not_mem_nil, or_false] at hw
    rcases hw with rfl | rfl | rfl | rfl | rfl | rfl
    · exact .null
    · exact .bool true
    · exact .bool false
    · exact .double _
    · exact .double _
    · exact .double _
  have hnumber : ∀ {negative whole text}, unsignedNumber negative whole text = .ok (v, rest) →
      v.Sound := by
    intro negative whole text h
    rcases unsignedNumber_eq_ok h with ⟨x, rfl⟩ | ⟨n, rfl, hn⟩
    · exact .double x
    · exact .integer hn
  rw [scalar.eq_def] at h
  split at h
  · next word value hword =>
    obtain ⟨rfl, -⟩ := Prod.mk.inj (Except.ok.inj h)
    exact hwords _ (List.mem_of_find?_eq_some hword)
  · split at h
    · exact hnumber h
    · exact hnumber h

/-- What is read with some fuel is sound. -/
structure ReadsSound (fuel : Nat) : Prop where
  value : ∀ {text rest v}, value fuel text = .ok (v, rest) → v.Sound
  items : ∀ {text rest xs}, items fuel text = .ok (xs, rest) → ∀ x ∈ xs, x.Sound
  fields : ∀ {before text rest fs}, SoundFields before → fields fuel before text = .ok (fs, rest) →
    SoundFields fs

theorem readsSound_succ {fuel : Nat} (ih : ReadsSound fuel) : ReadsSound (fuel + 1) where
  value {text rest v} h := by
    rw [value.eq_def] at h
    dsimp only at h
    split at h
    · obtain ⟨⟨s, after⟩, hs, heq⟩ := map_eq_ok_iff.mp h
      obtain ⟨rfl, -⟩ := Prod.mk.inj heq
      exact .string (sound_of_string hs)
    · split at h
      · obtain ⟨rfl, -⟩ := Prod.mk.inj (Except.ok.inj h)
        exact .array (by simp)
      · obtain ⟨⟨xs, after⟩, hxs, heq⟩ := map_eq_ok_iff.mp h
        obtain ⟨rfl, -⟩ := Prod.mk.inj heq
        exact .array (ih.items hxs)
    · split at h
      · obtain ⟨rfl, -⟩ := Prod.mk.inj (Except.ok.inj h)
        exact .object (by simp) (by simp) (by simp)
      · obtain ⟨⟨fs, after⟩, hfs, heq⟩ := map_eq_ok_iff.mp h
        obtain ⟨rfl, -⟩ := Prod.mk.inj heq
        have hsound := ih.fields ⟨by simp, by simp, by simp⟩ hfs
        exact .object hsound.keys hsound.nodup hsound.values
    · exact sound_of_scalar h
  items {text rest xs} h := by
    rw [items.eq_def] at h
    dsimp only at h
    split at h
    · cases h
    · next x after hx =>
      split at h
      · obtain ⟨rfl, -⟩ := Prod.mk.inj (Except.ok.inj h)
        exact List.forall_mem_singleton.mpr (ih.value hx)
      · obtain ⟨⟨ys, beyond⟩, hys, heq⟩ := map_eq_ok_iff.mp h
        obtain ⟨rfl, -⟩ := Prod.mk.inj heq
        exact List.forall_mem_cons.mpr ⟨ih.value hx, ih.items hys⟩
      · cases h
  fields {before text rest fs} hbefore h := by
    rw [fields.eq_def] at h
    dsimp only at h
    split at h
    · split at h
      · cases h
      · next key after hkey =>
        split at h
        · split at h
          · cases h
          · next x beyond hx =>
            have hnow := hbefore.setField (sound_of_string hkey) (ih.value hx)
            split at h
            · obtain ⟨rfl, -⟩ := Prod.mk.inj (Except.ok.inj h)
              exact hnow
            · exact ih.fields hnow h
            · cases h
        · cases h
    · cases h

theorem readsSound (fuel : Nat) : ReadsSound fuel := by
  induction fuel with
  | zero =>
    constructor
    · intro text rest v h
      cases h
    · intro text rest xs h
      cases h
    · intro before text rest fs _ h
      cases h
  | succ fuel ih => exact readsSound_succ ih

/-- A document that can be read is sound. -/
theorem sound_of_document {text : List Char} {v : JsonValue} (h : document text = .ok v) :
    v.Sound := by
  rw [document] at h
  split at h
  · cases h
  · split at h
    · cases h
    · next x rest hx =>
      split at h
      · exact Except.ok.inj h ▸ (readsSound _).value hx
      · cases h

end JsonReader

end ElmSuite
