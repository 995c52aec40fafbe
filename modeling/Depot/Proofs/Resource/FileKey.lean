import Depot.Proofs.Resource

/-!
# Which paths have a file key, and which one

A path is cut into parts at its slashes. Its entries are the parts that are neither empty nor `.`;
a path is `Astray` if one of its parts is `..` or if it has no entry. The normal form of a path has
its entries with one slash between each two, and it has the same entries (`entries_normalForm`).

Results:
* `fileKey_eq_error`: the paths without a file key are those that are astray.
* `fileKey_eq_ok`: the file key of any other path is the stem and the normal form.
* `fileKey_laws`: **a file key says the entries of a path and nothing more**, and it is never the
  key of the bundle.

These are `file_key` and `zip_key`.
-/

namespace Depot.Resource

open Text

variable {r : Resource} {path path' : String}

/-! ## Paths that are astray -/

/-- A path goes up, or names nothing. -/
def Astray (path : String) : Prop :=
  ['.', '.'] ∈ splitOn '/' path.toList ∨
    ∀ part ∈ splitOn '/' path.toList, part = [] ∨ part = ['.']

instance : DecidablePred Astray := fun path =>
  inferInstanceAs (Decidable (['.', '.'] ∈ splitOn '/' path.toList ∨
    ∀ part ∈ splitOn '/' path.toList, part = [] ∨ part = ['.']))

theorem innerParts_eq_nil {parts : List (List Char)} :
    innerParts parts = [] ↔ ∀ part ∈ parts, part = [] ∨ part = ['.'] := by
  rw [innerParts, List.map_eq_nil_iff, List.filter_eq_nil_iff]
  refine forall₂_congr fun part _ => ?_
  rw [decide_eq_true_iff, not_and_or, not_not, not_not]

theorem fileKey_eq_error {d : Defect} :
    r.fileKey path = .error d ↔ Astray path ∧ d = .invalidPath := by
  rw [fileKey_eq, Astray, ← innerParts_eq_nil]
  split
  · next h => exact ⟨fun he => ⟨h, (Except.error.inj he).symm⟩, fun ⟨_, hd⟩ => hd ▸ rfl⟩
  · next h => exact ⟨nofun, fun ⟨ha, _⟩ => absurd ha h⟩

/-! ## Normal forms -/

/-- The parts of a path that name an entry. -/
def entries (path : String) : List String :=
  innerParts (splitOn '/' path.toList)

/-- The path with its entries and one slash between each two. -/
def normalForm (path : String) : String :=
  "/".intercalate (entries path)

theorem mem_entries {part : String} : part ∈ entries path ↔
    part.toList ∈ splitOn '/' path.toList ∧ part.toList ≠ [] ∧ part.toList ≠ ['.'] := by
  rw [entries, innerParts, List.mem_map]
  constructor
  · rintro ⟨cs, hcs, rfl⟩
    rw [String.toList_ofList]
    exact ⟨(List.mem_filter.mp hcs).1, of_decide_eq_true (List.mem_filter.mp hcs).2⟩
  · rintro ⟨hp, hentry⟩
    exact ⟨part.toList, List.mem_filter.mpr ⟨hp, decide_eq_true hentry⟩, String.ofList_toList⟩

theorem entries_ne_nil (h : ¬ Astray path) : entries path ≠ [] := fun he =>
  h (.inr (innerParts_eq_nil.mp he))

theorem up_not_mem_entries (h : ¬ Astray path) : ".." ∉ entries path := fun hm =>
  h (.inl (mem_entries.mp hm).1)

/-- The entries of a path are the parts of its normal form. -/
theorem splitOn_normalForm (h : entries path ≠ []) :
    splitOn '/' (normalForm path).toList = (entries path).map String.toList := by
  rw [normalForm, toList_intercalate '/' (by simp), splitOn_joinWith '/' (by simpa using h)]
  intro part hp
  obtain ⟨entry, he, rfl⟩ := List.mem_map.mp hp
  exact not_mem_of_mem_splitOn '/' (mem_entries.mp he).1

/-- A normal form has the entries of the path. -/
theorem entries_normalForm (path : String) : entries (normalForm path) = entries path := by
  by_cases h : entries path = []
  · rw [normalForm, h]
    rfl
  · rw [entries, innerParts, splitOn_normalForm h, List.filter_eq_self.mpr]
    · simp
    · intro part hp
      obtain ⟨entry, he, rfl⟩ := List.mem_map.mp hp
      exact decide_eq_true (mem_entries.mp he).2

theorem normalForm_inj : normalForm path = normalForm path' ↔ entries path = entries path' := by
  constructor
  · intro h
    rw [← entries_normalForm path, h, entries_normalForm]
  · exact congrArg ("/".intercalate ·)

theorem not_astray_normalForm (h : ¬ Astray path) : ¬ Astray (normalForm path) := by
  rintro (hup | hstay)
  · rw [splitOn_normalForm (entries_ne_nil h)] at hup
    obtain ⟨entry, he, hdots⟩ := List.mem_map.mp hup
    obtain rfl : entry = ".." := String.toList_inj.mp hdots
    exact up_not_mem_entries h he
  · exact entries_ne_nil h (entries_normalForm path ▸ innerParts_eq_nil.mpr hstay)

/-! ## File keys -/

theorem fileKey_eq_ok (r : Resource) (h : ¬ Astray path) :
    r.fileKey path = .ok (r.stem ++ "/" ++ normalForm path) := by
  rw [fileKey_eq, if_neg]
  · rfl
  · rwa [innerParts_eq_nil]

theorem fileKey_ne_bundleKey (r : Resource) (path : String) :
    r.fileKey path ≠ .ok r.bundleKey := by
  by_cases h : Astray path
  · rw [fileKey_eq_error.mpr ⟨h, rfl⟩]
    exact nofun
  · rw [fileKey_eq_ok r h, bundleKey, String.append_assoc]
    intro he
    -- the two keys part right behind the stem, at the slash and the dot
    have htail := congrArg String.toList ((String.append_right_inj _).mp (Except.ok.inj he))
    simp at htail

/-- Paths have one file key just if they have the same entries. -/
theorem fileKey_inj (r : Resource) (h : ¬ Astray path) (h' : ¬ Astray path') :
    r.fileKey path = r.fileKey path' ↔ entries path = entries path' := by
  rw [fileKey_eq_ok r h, fileKey_eq_ok r h', Except.ok.injEq, String.append_right_inj,
    normalForm_inj]

/-- **The laws of file keys.** A path has no file key just if one of its parts is `..` or none of
them is other than empty or `.`; it is an invalid path then. Any other path has the file key that
its normal form has, the stem and the entries of the path; so two of them have the same key just if
they have the same entries. No file key is the key of the bundle. -/
theorem fileKey_laws (r : Resource) (path : String) :
    (∀ d, r.fileKey path = .error d ↔ Astray path ∧ d = .invalidPath) ∧
      (¬ Astray path →
        r.fileKey path = .ok (r.stem ++ "/" ++ normalForm path) ∧
          r.fileKey (normalForm path) = r.fileKey path ∧
          ∀ path', ¬ Astray path' →
            (r.fileKey path = r.fileKey path' ↔ entries path = entries path')) ∧
      r.fileKey path ≠ .ok r.bundleKey := by
  refine ⟨fun d => fileKey_eq_error, fun h => ⟨fileKey_eq_ok r h, ?_, fun path' h' => ?_⟩,
    fileKey_ne_bundleKey r path⟩
  · rw [fileKey_inj r (not_astray_normalForm h) h, entries_normalForm]
  · exact fileKey_inj r h h'

/-- A resource of which no part is fit to be stored. -/
def unfitResource : Resource :=
  ⟨"", "..", "?", 0⟩

/-- Slashes and dots of a path do not show in its file key, three dots do, and a path that goes up
has none. -/
theorem fileKey_laws_unfitResource :
    ¬ Astray "/./arm//.../ü/" ∧ ¬ Astray "arm/.../ü" ∧ Astray "arm/../ü" ∧
      unfitResource.fileKey "/./arm//.../ü/" = .ok "/../?/0/arm/.../ü" ∧
      unfitResource.fileKey "/./arm//.../ü/" = unfitResource.fileKey "arm/.../ü" ∧
      unfitResource.fileKey "arm/../ü" = .error .invalidPath := by
  have h : ¬ Astray "/./arm//.../ü/" := by decide
  have h' : ¬ Astray "arm/.../ü" := by decide
  have hup : Astray "arm/../ü" := by decide
  obtain ⟨-, hkey, -⟩ := fileKey_laws unfitResource "/./arm//.../ü/"
  refine ⟨h, h', hup, (hkey h).1, ((hkey h).2.2 _ h').mpr ?_, ?_⟩
  · decide
  · exact ((fileKey_laws unfitResource "arm/../ü").1 _).mpr ⟨hup, rfl⟩

end Depot.Resource
