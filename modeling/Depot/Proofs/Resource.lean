import Depot.Proofs.Path
import Depot.Resource

/-!
# Keys of resources

The parts of a text are what stands between its slashes.

* `fileKey_eq` says which file keys there are: a path is refused if one of its parts is `..` or if
  none of its parts is other than empty or `.`; else the key is the stem and those other parts.
* `relativeKey` spells a path of names (`pieces_relativeKey`), and a file key of such a path is the
  stem and the path (`fileKey_relativeKey`).
* Names that are texts, one behind the other, are the path that their key spells
  (`children_eq_join`).
* The parts of the stem are those of owner and kind, the uuid and the version
  (`splitOn_entryKey`), for a resource that passes its check, whose uuid is a single name.
-/

namespace Depot

open Text

/-! ## Names joined to a key -/

namespace Resource

theorem encode_relativeKey (names : List Name) :
    encode (relativeKey names) = joinWith slash (names.map fun n => n.shown.bytes) := by
  rw [relativeKey, map_intercalate "/" encode slash rfl rfl encode_append, List.map_map]
  rfl

/-- A key of names spells the path of the names as they are shown. -/
theorem pieces_relativeKey {names : List Name} (h : names ≠ []) :
    (Path.ofString (relativeKey names)).pieces = names.map fun n => n.shown.bytes := by
  rw [Path.pieces, Path.ofString, encode_relativeKey, splitOn_joinWith]
  · simpa using h
  · intro b hb
    obtain ⟨n, -, rfl⟩ := List.mem_map.mp hb
    exact n.shown.ordinary.2.2.2

theorem splitOn_relativeKey {names : List Name} (h : names ≠ []) :
    splitOn '/' (relativeKey names).toList = names.map fun n => n.display.toList := by
  rw [relativeKey, toList_intercalate '/' (by simp), List.map_map,
    splitOn_joinWith '/' (by simpa using h)]
  · rfl
  · intro part hp
    obtain ⟨n, -, rfl⟩ := List.mem_map.mp hp
    exact n.isName_display.2.2.2

theorem relativeKey_shown (names : List Name) :
    relativeKey (names.map Name.shown) = relativeKey names := by
  simp [relativeKey, Function.comp_def]

theorem isAbsolute_relativeKey (names : List Name) :
    (Path.ofString (relativeKey names)).isAbsolute = false := by
  cases names with
  | nil => rfl
  | cons n names =>
    rw [Bool.eq_false_iff]
    intro h
    have hp := pieces_relativeKey (List.cons_ne_nil n names)
    exact n.shown.ordinary.1 ((Path.isAbsolute_iff_pieces hp).mp h).1

theorem ofString_relativeKey_singleton (n : Name) :
    Path.ofString (relativeKey [n]) = ⟨n.shown.bytes⟩ := rfl

theorem ofString_relativeKey (n : Name) {names : List Name} (h : names ≠ []) :
    Path.ofString (relativeKey (n :: names))
      = Path.join ⟨n.shown.bytes⟩ (.ofString (relativeKey names)) := by
  obtain ⟨m, names, rfl⟩ := List.exists_cons_of_ne_nil h
  have hkey : relativeKey (n :: m :: names) = n.display ++ "/" ++ relativeKey (m :: names) := by
    rw [relativeKey, List.map_cons, List.map_cons, String.intercalate_cons_cons, ← List.map_cons]
    rfl
  have hname := Name.ordinary_encode n.isName_display
  rw [hkey, Path.ofString_append hname.1 (fun hl => hname.2.2.2 (List.mem_of_getLast? hl))
    (isAbsolute_relativeKey _)]
  rfl

/-- Names that are texts, one behind the other, are a path that their key spells. -/
theorem children_eq_join (p : Path) {names : List Name} (hne : names ≠ [])
    (htext : ∀ n ∈ names, n.shown = n) :
    names.foldl Path.child p = p.join (.ofString (relativeKey names)) := by
  induction names generalizing p with
  | nil => exact absurd rfl hne
  | cons n names ih =>
    obtain ⟨hn, hnames⟩ := List.forall_mem_cons.mp htext
    rw [List.foldl_cons, Path.child]
    by_cases hlast : names = []
    · subst hlast
      rw [ofString_relativeKey_singleton, hn, List.foldl_nil]
    · rw [ih (p.join ⟨n.bytes⟩) hlast hnames, ofString_relativeKey n hlast, hn,
        Path.join_join p n.ordinary.1 (isAbsolute_relativeKey names)]

theorem steps_relativeKey (names : List Name) :
    (Path.ofString (relativeKey names)).steps = names.map fun n => .name n.shown := by
  rw [Path.steps_of_relative (isAbsolute_relativeKey names)]
  by_cases h : names = []
  · subst h; rfl
  · rw [pieces_relativeKey h, List.filterMap_map]
    simp

/-! ## Names of a path -/

/-- Components that stay do not count. -/
theorem innerNames?_filter (cs : List Component) :
    innerNames? (cs.filter (· ≠ .current)) = innerNames? cs := by
  induction cs with
  | nil => rfl
  | cons c cs ih => cases c <;> simp [innerNames?] <;> simpa using ih

/-- The parts of a text that name an entry, if there is no `..` among them. -/
def innerParts (parts : List (List Char)) : List String :=
  (parts.filter fun part => part ≠ [] ∧ part ≠ ['.']).map String.ofList

theorem innerNames?_parts {parts : List (List Char)} (h : ∀ part ∈ parts, '/' ∉ part) :
    (innerNames? (parts.filterMap Path.stepOf)).map (·.map Name.display)
      = if ['.', '.'] ∈ parts then .error .invalidPath else .ok (innerParts parts) := by
  induction parts with
  | nil => rfl
  | cons part parts ih =>
    have hslash := h part List.mem_cons_self
    replace ih := ih fun q hq => h q (List.mem_cons_of_mem _ hq)
    cases hs : Path.stepOf part with
    | none =>
      have hstay := (Path.stepOf_eq_none hslash).mp hs
      rw [List.filterMap_cons_none hs, ih]
      rcases hstay with rfl | rfl <;> simp [innerParts]
    | some c =>
      have hstay : part ≠ [] ∧ part ≠ ['.'] := by
        rw [← not_or, ← Path.stepOf_eq_none hslash, hs]; simp
      rw [List.filterMap_cons_some hs]
      cases c with
      | root => exact absurd hs (Path.stepOf_ne_root part)
      | current => exact absurd hs (Path.stepOf_ne_current part)
      | up => simp [innerNames?, Path.stepOf_eq_up.mp hs, Except.map]
      | name n =>
        have hn : n.display = String.ofList part := by
          rw [Name.display, Path.stepOf_eq_name hs, lossy_encode]
        have hup : part ≠ ['.', '.'] := by
          intro he
          rw [Path.stepOf_eq_up.mpr he] at hs; exact absurd hs (by simp)
        have hcons : ∀ e : Except Defect (List Name), ((n :: ·) <$> e).map (·.map Name.display)
            = (n.display :: ·) <$> e.map (·.map Name.display) := by
          intro e
          cases e <;> rfl
        rw [innerNames?, hcons, ih, hn]
        simp only [List.mem_cons, Ne.symm hup, false_or]
        split
        · rfl
        · simp [innerParts, hstay, Functor.map, Except.map]

/-! ## File keys -/

/-- The slashes in front of a path only add empty parts. -/
theorem mem_splitOn_dropWhile (cs : List Char) {part : List Char} (h : part ≠ []) :
    part ∈ splitOn '/' (cs.dropWhile (· == '/')) ↔ part ∈ splitOn '/' cs := by
  induction cs with
  | nil => rfl
  | cons c cs ih =>
    by_cases hc : c = '/'
    · simp [hc, splitOn, ih, h]
    · simp [hc]

theorem innerParts_dropWhile (cs : List Char) :
    innerParts (splitOn '/' (cs.dropWhile (· == '/'))) = innerParts (splitOn '/' cs) := by
  induction cs with
  | nil => rfl
  | cons c cs ih =>
    by_cases hc : c = '/'
    · rw [List.dropWhile_cons_of_pos (by simp [hc]), ih, splitOn, if_pos hc]
      rfl
    · rw [List.dropWhile_cons_of_neg (by simp [hc])]

/-- Which paths have a file key, and which one. -/
theorem fileKey_eq (r : Resource) (path : String) :
    r.fileKey path
      = if ['.', '.'] ∈ splitOn '/' path.toList ∨ innerParts (splitOn '/' path.toList) = []
        then .error .invalidPath
        else .ok (r.stem ++ "/" ++ "/".intercalate (innerParts (splitOn '/' path.toList))) := by
  have hrel : (Path.ofString (String.ofList (path.toList.dropWhile (· == '/')))).isAbsolute
      = false := by
    rw [Bool.eq_false_iff, ne_eq, Path.isAbsolute_ofString, String.toList_ofList]
    intro h
    have := List.head?_dropWhile_not (· == '/') path.toList
    rw [h] at this
    exact absurd this (by simp)
  have hnames : ((innerNames? (Path.ofString
        (String.ofList (path.toList.dropWhile (· == '/')))).components).map (·.map Name.display))
      = if ['.', '.'] ∈ splitOn '/' path.toList then .error .invalidPath
        else .ok (innerParts (splitOn '/' path.toList)) := by
    rw [← innerNames?_filter, ← Path.steps, Path.steps_ofString, hrel,
      if_neg Bool.false_ne_true, List.nil_append, String.toList_ofList,
      innerNames?_parts fun part hp => not_mem_of_mem_splitOn '/' hp, innerParts_dropWhile]
    simp only [mem_splitOn_dropWhile path.toList (List.cons_ne_nil '.' ['.'])]
  simp only [fileKey]
  generalize innerNames? _ = names at hnames ⊢
  by_cases hup : ['.', '.'] ∈ splitOn '/' path.toList
  · rw [if_pos hup] at hnames
    rw [if_pos (Or.inl hup)]
    cases names with
    | error e => rw [Except.error.inj hnames]; rfl
    | ok ns => exact absurd hnames (by simp [Except.map])
  · rw [if_neg hup] at hnames
    cases names with
    | error e => exact absurd hnames (by simp [Except.map])
    | ok ns =>
      rw [← Except.ok.inj hnames]
      cases ns with
      | nil => exact (if_pos (Or.inr rfl)).symm
      | cons n ns => rw [if_neg (by simp [hup])]; rfl

/-- A file key is the stem and the names of a path. -/
theorem exists_names_of_fileKey {r : Resource} {path key : String} (h : r.fileKey path = .ok key) :
    ∃ names : List Name, names ≠ [] ∧ key = r.stem ++ "/" ++ relativeKey names := by
  unfold fileKey at h
  simp only [bind, Except.bind] at h
  split at h
  · exact absurd h (by simp)
  · split at h
    · exact absurd h (by simp)
    · next names hne => exact ⟨_, hne, (Except.ok.inj h).symm⟩

/-- The key of names is a path inside, which has the file key that it says. -/
theorem fileKey_relativeKey (r : Resource) {names : List Name} (h : names ≠ []) :
    r.fileKey (relativeKey names) = .ok (r.stem ++ "/" ++ relativeKey names) := by
  have hup : ['.', '.'] ∉ names.map fun n => n.display.toList := by
    rintro hm
    obtain ⟨n, -, hn⟩ := List.mem_map.mp hm
    exact n.isName_display.2.2.1 (String.toList_inj.mp (hn.trans rfl))
  have hinner : innerParts (names.map fun n => n.display.toList) = names.map Name.display := by
    rw [innerParts, List.filter_eq_self.mpr]
    · simp
    · intro part hp
      obtain ⟨n, -, rfl⟩ := List.mem_map.mp hp
      have h0 : n.display.toList ≠ [] := by
        intro he
        exact n.isName_display.1 (String.toList_eq_nil_iff.mp he)
      have h1 : n.display.toList ≠ ['.'] := by
        intro he
        exact n.isName_display.2.1 (String.toList_inj.mp (he.trans rfl))
      exact decide_eq_true ⟨h0, h1⟩
  rw [fileKey_eq, splitOn_relativeKey h, hinner, if_neg (by simpa [hup] using h)]
  rfl

/-- The keys under which something of a resource is stored. -/
inductive IsKey (r : Resource) : String → Prop where
  | bundle : r.IsKey r.bundleKey
  | file {path key : String} (h : r.fileKey path = .ok key) : r.IsKey key

theorem isKey_relativeKey (r : Resource) {names : List Name} (h : names ≠ []) :
    r.IsKey (r.stem ++ "/" ++ relativeKey names) :=
  .file (r.fileKey_relativeKey h)

end Resource

/-! ## Texts of UUIDs and versions -/

namespace Uuid

theorem digit?_slash : digit? '/' = none := by
  decide

theorem slash_not_mem_of_ofGroups? {lengths : List Nat} {groups : List (List Char)} {u : Uuid}
    (h : ofGroups? lengths groups = some u) : '/' ∉ groups.flatten := by
  unfold ofGroups? at h
  split at h
  · obtain ⟨ds, hds, -⟩ := Option.map_eq_some_iff.mp h
    intro hm
    obtain ⟨before, after, hsplit⟩ := List.append_of_mem hm
    simp [hsplit, digit?_slash] at hds
  · exact absurd h (by simp)

theorem slash_not_mem_of_ofHyphenated? {cs : List Char} {u : Uuid}
    (h : ofHyphenated? cs = some u) : '/' ∉ cs := by
  intro hm
  rcases mem_splitOn '-' hm with hc | hc
  · exact absurd hc (by decide)
  · exact slash_not_mem_of_ofGroups? h hc

/-- A text that is read as a UUID is long and has a single part. -/
theorem of_parse? {s : String} {u : Uuid} (h : parse? s = some u) :
    32 ≤ s.toList.length ∧ '/' ∉ s.toList := by
  unfold parse? at h
  rw [String.length_toList]
  split at h
  · next hl => exact ⟨by omega, by simpa using slash_not_mem_of_ofGroups? h⟩
  · next hl => exact ⟨by omega, slash_not_mem_of_ofHyphenated? h⟩
  · next hl =>
    refine ⟨by omega, ?_⟩
    unfold ofBraced? at h
    split at h
    · next cs hcs =>
      split at h
      · next hlast =>
        have hne : cs ≠ [] := by
          rintro rfl
          simp at hlast
        have hbody := slash_not_mem_of_ofHyphenated? h
        have hend : cs.getLast hne = '\x7d' := by
          rw [List.getLast?_eq_some_getLast hne] at hlast
          exact Option.some.inj hlast
        rw [hcs, ← List.dropLast_append_getLast hne, hend]
        simp [hbody]
      · exact absurd h (by simp)
    · exact absurd h (by simp)
  · next hl =>
    refine ⟨by omega, ?_⟩
    unfold ofUrn? at h
    split at h
    · next hurn =>
      rw [← List.take_append_drop 9 s.toList, List.mem_append, not_or]
      refine ⟨fun hm => ?_, slash_not_mem_of_ofHyphenated? h⟩
      have hm' := hurn ▸ List.mem_map_of_mem (f := Char.toLower) hm
      exact absurd hm' (by decide)
    · exact absurd h (by simp)
  · exact absurd h (by simp)

end Uuid

theorem isDigit_of_mem_repr {n : Nat} {c : Char} (h : c ∈ n.repr.toList) : c.isDigit = true :=
  Nat.isDigit_of_mem_toDigits (b := 10) (by decide) (by decide) (Nat.toList_repr ▸ h)

theorem isName_repr (n : Nat) : IsName n.repr := by
  have hdigit : ∀ c ∈ n.repr.toList, c.isDigit = true := fun c hc => isDigit_of_mem_repr hc
  exact ⟨Nat.repr_ne_empty, fun h => absurd (hdigit '.' (by simp [h])) (by decide),
    fun h => absurd (hdigit '.' (by simp [h])) (by decide),
    fun h => absurd (hdigit '/' h) (by decide)⟩

theorem IsName.append {s t : String} (hs : IsName s) (ht : '/' ∉ t.toList) (hz : 'z' ∈ t.toList) :
    IsName (s ++ t) := by
  have hm : 'z' ∈ (s ++ t).toList := by simp [hz]
  refine ⟨fun h => ?_, fun h => ?_, fun h => ?_, by simp [hs.2.2.2, ht]⟩ <;>
    exact absurd (h ▸ hm) (by simp)

namespace Resource

theorem check_eq_ok {r : Resource} :
    r.check = .ok () ↔ r.owner ≠ "" ∧ r.kind ≠ "" ∧
      (Uuid.parse? r.uuid).bind Uuid.version = some Uuid.randomVersion ∧ r.version ≠ 0 := by
  unfold check
  by_cases ho : r.owner = ""
  · simp [ho]
  · by_cases hk : r.kind = ""
    · simp [ho, hk]
    · by_cases hu : (Uuid.parse? r.uuid).bind Uuid.version = some Uuid.randomVersion
      · by_cases hv : r.version = 0 <;> simp [ho, hk, hu, hv]
      · simp [ho, hk, hu]

theorem isName_uuid {r : Resource} (h : r.check = .ok ()) : IsName r.uuid := by
  obtain ⟨u, hu, -⟩ := Option.bind_eq_some_iff.mp (check_eq_ok.mp h).2.2.1
  obtain ⟨hl, hs⟩ := Uuid.of_parse? hu
  refine ⟨fun he => ?_, fun he => ?_, fun he => ?_, hs⟩ <;> rw [he] at hl <;>
    exact absurd hl (by simp)

/-! ## The parts of the stem -/

/-- The key of an entry of the directory that holds the versions of what a resource is one of. -/
def entryKey (r : Resource) (entry : String) : String :=
  r.owner ++ "/" ++ r.kind ++ "/" ++ r.uuid ++ "/" ++ entry

/-- The entry for the tree of files. -/
def treeEntry (r : Resource) : String :=
  r.version.toNat.repr

/-- The entry for the bundle. -/
def bundleEntry (r : Resource) : String :=
  r.version.toNat.repr ++ ".zip"

theorem stem_eq (r : Resource) : r.stem = r.entryKey r.treeEntry := rfl

theorem bundleKey_eq (r : Resource) : r.bundleKey = r.entryKey r.bundleEntry := by
  simp [bundleKey, stem, entryKey, bundleEntry, String.append_assoc]

theorem isName_treeEntry (r : Resource) : IsName r.treeEntry :=
  isName_repr _

theorem isName_bundleEntry (r : Resource) : IsName r.bundleEntry :=
  (isName_repr _).append (by simp) (by simp)

/-- The name of the tree among the versions. -/
def treeName (r : Resource) : Name :=
  .ofText r.treeEntry r.isName_treeEntry

/-- The name of the bundle among the versions. -/
def bundleName (r : Resource) : Name :=
  .ofText r.bundleEntry r.isName_bundleEntry

theorem treeName_ne_bundleName (r : Resource) : r.treeName ≠ r.bundleName := by
  intro he
  have hbytes : encode r.treeEntry = encode (r.treeEntry ++ ".zip") := congrArg Name.bytes he
  rw [encode_append] at hbytes
  exact absurd (List.self_eq_append_right.mp hbytes) (by decide)

/-- The bundle stands beside the tree. -/
theorem tree_ne_bundle (r : Resource) (q : List Name) : r.treeName :: q ≠ [r.bundleName] :=
  fun he => r.treeName_ne_bundleName (List.cons.inj he).1

/-- The parts of owner, kind and uuid. -/
def leadParts (r : Resource) : List (List Char) :=
  splitOn '/' r.owner.toList ++ splitOn '/' r.kind.toList ++ splitOn '/' r.uuid.toList

theorem splitOn_entryKey (r : Resource) {entry : String} (h : IsName entry) :
    splitOn '/' (r.entryKey entry).toList = r.leadParts ++ [entry.toList] := by
  have hl : (r.entryKey entry).toList = r.owner.toList ++ '/' :: (r.kind.toList ++ '/' ::
      (r.uuid.toList ++ '/' :: entry.toList)) := by
    simp [entryKey]
  simp only [hl, splitOn_append_sep, List.append_assoc, leadParts,
    splitOn_of_not_mem '/' h.2.2.2]

/-- The steps to the directory that holds the versions. -/
def lead (r : Resource) : List Component :=
  (if r.owner.toList.head? = some '/' then [.root] else []) ++ r.leadParts.filterMap Path.stepOf

theorem isAbsolute_entryKey {r : Resource} (ho : r.owner ≠ "") (entry : String) :
    (Path.ofString (r.entryKey entry)).isAbsolute = true ↔ r.owner.toList.head? = some '/' := by
  rw [Path.isAbsolute_ofString]
  obtain ⟨c, cs, hc⟩ := List.exists_cons_of_ne_nil fun he => ho (String.toList_eq_nil_iff.mp he)
  simp [entryKey, hc]

theorem steps_entryKey {r : Resource} (ho : r.owner ≠ "") {entry : String} (h : IsName entry) :
    (Path.ofString (r.entryKey entry)).steps = r.lead ++ [.name (.ofText entry h)] := by
  simp only [Path.steps_ofString, isAbsolute_entryKey ho, splitOn_entryKey r h,
    List.filterMap_append, lead, List.append_assoc]
  simp [Path.stepOf_toList h]

theorem encode_entryKey (r : Resource) {entry : String} (h : IsName entry) :
    encode (r.entryKey entry) ≠ [] ∧ (encode (r.entryKey entry)).getLast? ≠ some slash := by
  have hne : encode entry ≠ [] := (Name.ordinary_encode h).1
  rw [entryKey, encode_append, List.getLast?_append_of_ne_nil _ hne]
  refine ⟨by simp [hne], fun hl => (Name.ordinary_encode h).2.2.2 ?_⟩
  exact List.mem_of_getLast? hl

/-- The path of a key behind the stem is the path of the key behind that of the stem. -/
theorem ofString_stem_append (r : Resource) (names : List Name) :
    Path.ofString (r.stem ++ "/" ++ relativeKey names)
      = (Path.ofString r.stem).join (.ofString (relativeKey names)) :=
  Path.ofString_append (encode_entryKey r r.isName_treeEntry).1
    (encode_entryKey r r.isName_treeEntry).2 (isAbsolute_relativeKey names)

/-- The owner, and with it every key, is no absolute path, and neither owner nor kind goes up. -/
structure Descends (r : Resource) : Prop where
  relative : r.owner.toList.head? ≠ some '/'
  owner : ['.', '.'] ∉ splitOn '/' r.owner.toList
  kind : ['.', '.'] ∉ splitOn '/' r.kind.toList

theorem up_not_mem_leadParts {r : Resource} (h : r.check = .ok ()) :
    ['.', '.'] ∉ r.leadParts ↔
      ['.', '.'] ∉ splitOn '/' r.owner.toList ∧ ['.', '.'] ∉ splitOn '/' r.kind.toList := by
  have hu : ['.', '.'] ≠ r.uuid.toList := by
    intro he
    exact (isName_uuid h).2.2.1 (String.toList_inj.mp (he.symm.trans rfl))
  simp [leadParts, splitOn_of_not_mem '/' (isName_uuid h).2.2.2, hu]

/-- The owner or the kind goes up. -/
def GoesUp (r : Resource) : Prop :=
  ['.', '.'] ∈ splitOn '/' r.owner.toList ∨ ['.', '.'] ∈ splitOn '/' r.kind.toList

theorem Descends.not_goesUp {r : Resource} (h : r.Descends) : ¬ r.GoesUp :=
  fun hup => hup.elim h.owner h.kind

/-- What does not go up says names. -/
theorem exists_names_of_not_goesUp {r : Resource} (h : r.check = .ok ()) (hup : ¬ r.GoesUp) :
    ∃ names : List Name, r.leadParts.filterMap Path.stepOf = names.map .name := by
  refine Path.exists_names_iff.mpr ⟨?_, ?_, ?_⟩
  · simp [Path.stepOf_ne_root]
  · simp [Path.stepOf_ne_current]
  · simpa [Path.stepOf_eq_up] using (up_not_mem_leadParts h).mpr (not_or.mp hup)

/-- The steps to the directory that holds the versions are names just if nothing goes up or starts
at the root. -/
theorem descends_iff {r : Resource} (h : r.check = .ok ()) :
    r.Descends ↔ ∃ names : List Name, r.lead = names.map .name := by
  have hroot : .root ∈ r.lead ↔ r.owner.toList.head? = some '/' := by
    simp [lead, Path.stepOf_ne_root]
  have hcurrent : .current ∉ r.lead := by
    simp [lead, Path.stepOf_ne_current]
  have hup : .up ∈ r.lead ↔ ['.', '.'] ∈ r.leadParts := by
    simp [lead, Path.stepOf_eq_up]
  rw [Path.exists_names_iff, hroot, hup, up_not_mem_leadParts h]
  exact ⟨fun ⟨hr, ho, hk⟩ => ⟨hr, hcurrent, ho, hk⟩, fun ⟨hr, _, ho, hk⟩ => ⟨hr, ho, hk⟩⟩

end Resource

end Depot
