import Depot.Proofs.Folder.Frame
import Depot.Proofs.Storage.RoundTrip

/-!
# Resources that do not meet

What is stored of two resources is apart just if neither tree is where the other is or below it:

* `Resource.Lists` is what a folder and a bucket have in common: each makes a list of a key, a place
  or the parts of an object's path, in which a file is behind its tree. From it alone follows when
  two resources share a list (`Resource.disjoint_iff`).
* `Storage.Isolated` is what apart means: no two keys have one site, and no upload of one resource,
  whatever comes of it, changes what is stored of the other or keeps it from being fetched.
* Resources are isolated just if neither tree reaches the other (`Storage.isolated_iff`). Trees can:
  an owner and a kind may hold slashes, so a key does not tell where the owner ends
  (`Storage.not_isolated_twoParts`). Different resources whose owners and kinds are single names are
  isolated (`Storage.isolated_of_named`).

Links lead anywhere, so a folder isolates only what is not reached through them.

The trees are at the `prefix` of a resource (the specification's glossary has the four fields
identify one).
-/

namespace Depot

open Text

/-! ## Keys name by name -/

namespace Resource

variable {α : Type} {spell : Name → α} {list : String → List α} {r s : Resource}

theorem treeName_eq (h : r.bundleName.display = s.bundleName.display) :
    r.treeName = s.treeName := by
  rw [bundleName, bundleName, Name.display_ofText, Name.display_ofText] at h
  have happ := congrArg String.toList h
  rw [bundleEntry, bundleEntry, String.toList_append, String.toList_append] at happ
  exact Name.ofText_inj.mpr (String.toList_inj.mp (List.append_cancel_right happ))

/-- The keys of a resource as lists: tree and bundle are two entries behind one list, and a file is
behind the tree with its names. -/
structure Lists (r : Resource) (spell : Name → α) (list : String → List α) : Prop where
  entries : ∃ lead, list r.stem = lead ++ [spell r.treeName] ∧
    list r.bundleKey = lead ++ [spell r.bundleName]
  file : ∀ names, names ≠ [] →
    list (r.stem ++ "/" ++ relativeKey names) = list r.stem ++ names.map spell

/-- The tree of `s` is the tree of `r`, or is where a file of `r` can be. -/
def Reaches (spell : Name → α) (list : String → List α) (r s : Resource) : Prop :=
  ∃ names : List Name, list s.stem = list r.stem ++ names.map spell

/-- Two files are in one place only if one tree is at or below the other. -/
theorem reaches_of_files {names names' : List Name}
    (h : list r.stem ++ names.map spell = list s.stem ++ names'.map spell) :
    Reaches spell list r s ∨ Reaches spell list s r := by
  rcases List.append_eq_append_iff.mp h with ⟨more, hs, hm⟩ | ⟨more, hr, hm⟩
  · obtain ⟨ns, _, rfl, hns, -⟩ := List.map_eq_append_iff.mp hm
    exact .inl ⟨ns, by rw [hs, hns]⟩
  · obtain ⟨ns, _, rfl, hns, -⟩ := List.map_eq_append_iff.mp hm
    exact .inr ⟨ns, by rw [hr, hns]⟩

/-- A bundle is where a file can be only if its tree is there too. -/
theorem reaches_of_bundle (hr : r.Lists spell list) {names : List Name} (hne : names ≠ [])
    (h : list r.bundleKey = list s.stem ++ names.map spell) : Reaches spell list s r := by
  obtain ⟨lead, htree, hbundle⟩ := hr.entries
  obtain ⟨init, last, rfl⟩ := (List.eq_nil_or_concat' names).resolve_left hne
  rw [hbundle, List.map_append, ← List.append_assoc] at h
  have hlead := (List.append_inj' h (Eq.refl 1)).1
  exact ⟨init ++ [r.treeName], by simp [htree, hlead]⟩

/-- Two bundles are in one place only if their trees are. -/
theorem reaches_of_bundles (hspell : ∀ n m, spell n = spell m → n.display = m.display)
    (hr : r.Lists spell list) (hs : s.Lists spell list) (h : list r.bundleKey = list s.bundleKey) :
    Reaches spell list r s := by
  obtain ⟨lead, htree, hbundle⟩ := hr.entries
  obtain ⟨lead', htree', hbundle'⟩ := hs.entries
  rw [hbundle, hbundle'] at h
  obtain ⟨rfl, hname⟩ := List.append_inj' h (Eq.refl 1)
  have hname := treeName_eq (hspell _ _ (List.singleton_inj.mp hname))
  exact ⟨[], by rw [htree, htree', hname, List.map_nil, List.append_nil]⟩

/-- Where one tree is at or below the other, some file of one is a file of the other. -/
theorem Reaches.exists_meet (hr : r.Lists spell list) (hs : s.Lists spell list)
    (h : Reaches spell list r s) : ∃ k l, r.IsKey k ∧ s.IsKey l ∧ list k = list l := by
  obtain ⟨names, he⟩ := h
  have hne := List.concat_ne_nil r.treeName names
  have hne' := List.cons_ne_nil r.treeName []
  refine ⟨_, _, r.isKey_relativeKey hne, s.isKey_relativeKey hne', ?_⟩
  rw [hr.file _ hne, hs.file _ hne', he]
  simp

/-- No two keys of two resources are in one place just if neither tree is at or below the other. -/
theorem disjoint_iff (hspell : ∀ n m, spell n = spell m → n.display = m.display)
    (hr : r.Lists spell list) (hs : s.Lists spell list) :
    (∀ k l, r.IsKey k → s.IsKey l → list k ≠ list l) ↔
      ¬ Reaches spell list r s ∧ ¬ Reaches spell list s r := by
  constructor
  · intro h
    refine ⟨fun hrs => ?_, fun hsr => ?_⟩
    · obtain ⟨k, l, hk, hl, he⟩ := hrs.exists_meet hr hs
      exact h k l hk hl he
    · obtain ⟨l, k, hl, hk, he⟩ := hsr.exists_meet hs hr
      exact h k l hk hl he.symm
  · rintro ⟨hrs, hsr⟩ k l hk hl he
    cases hk with
    | bundle =>
      cases hl with
      | bundle => exact hrs (reaches_of_bundles hspell hr hs he)
      | file hl =>
        obtain ⟨names, hne, rfl⟩ := exists_names_of_fileKey hl
        rw [hs.file _ hne] at he
        exact hsr (reaches_of_bundle hr hne he)
    | file hk =>
      obtain ⟨names, hne, rfl⟩ := exists_names_of_fileKey hk
      rw [hr.file _ hne] at he
      cases hl with
      | bundle => exact hrs (reaches_of_bundle hs hne he.symm)
      | file hl =>
        obtain ⟨names', hne', rfl⟩ := exists_names_of_fileKey hl
        rw [hs.file _ hne'] at he
        exact (reaches_of_files he).elim hrs hsr

/-! ## Owners and kinds that are names -/

/-- Owner and kind are single names, as the uuid and the version are. -/
structure Named (r : Resource) : Prop where
  check : r.check = .ok ()
  owner : IsName r.owner
  kind : IsName r.kind

/-- The names of which the stem consists. -/
def Named.names (h : r.Named) : List Name :=
  [.ofText r.owner h.owner, .ofText r.kind h.kind, .ofText r.uuid (isName_uuid h.check), r.treeName]

theorem Named.names_ne_nil (h : r.Named) : h.names ≠ [] :=
  List.cons_ne_nil _ _

theorem Named.stem_eq (h : r.Named) : r.stem = relativeKey h.names := by
  simp [stem, relativeKey, names, treeName, treeEntry, String.intercalate_cons_cons,
    String.append_assoc]

theorem version_eq (h : r.treeEntry = s.treeEntry) : r.version = s.version := by
  have hdigits := congrArg String.toList h
  rw [treeEntry, treeEntry, Nat.toList_repr, Nat.toList_repr] at hdigits
  have hread : ∀ n, Nat.ofDigitChars 10 (Nat.toDigits 10 n) 0 = n := by
    intro n
    exact Nat.ofDigitChars_toDigits (by decide) (by decide)
  exact UInt64.toNat_inj.mp (by rw [← hread r.version.toNat, hdigits, hread])

/-- No tree of a named resource is at or below that of another. -/
theorem Named.not_reaches (hspell : ∀ n m, spell n = spell m → n.display = m.display)
    (base : List α)
    (hlist : ∀ names, names ≠ [] → list (relativeKey names) = base ++ names.map spell)
    (hr : r.Named) (hs : s.Named) (hne : r ≠ s) : ¬ Reaches spell list r s := by
  rintro ⟨more, h⟩
  rw [hr.stem_eq, hs.stem_eq, hlist _ hr.names_ne_nil, hlist _ hs.names_ne_nil,
    List.append_assoc, List.append_cancel_left_eq] at h
  have hlen : more = [] := by simpa [names] using congrArg List.length h
  subst hlen
  simp only [names, List.map_cons, List.map_nil, List.append_nil, List.cons.injEq, and_true] at h
  obtain ⟨ho, hk, hu, ht⟩ := h
  have hv := hspell _ _ ht
  rw [treeName, treeName, Name.display_ofText, Name.display_ofText] at hv
  have ho := hspell _ _ ho
  have hk := hspell _ _ hk
  have hu := hspell _ _ hu
  simp only [Name.display_ofText] at ho hk hu
  have hversion := version_eq hv
  refine hne ?_
  cases r
  cases s
  rw [mk.injEq]
  exact ⟨ho.symm, hk.symm, hu.symm, hversion.symm⟩

end Resource

/-! ## Sites of keys -/

/-- The keys of a resource as places of a folder. -/
theorem Folder.lists (f : Folder) {r : Resource} (hr : r.check = .ok ()) (here : Place) :
    r.Lists Name.shown fun key => Volume.settled (f.pathOf key) here := by
  have hentry : ∀ {entry : String} (h : IsName entry),
      Volume.settled (f.pathOf (r.entryKey entry)) here
        = Volume.settled (f.pathOf r.leadKey) here ++ [(Name.ofText entry h).shown] := by
    intro entry h
    rw [pathOf_entryKey f hr h, Volume.settled_join _ (Path.isAbsolute_name _), Path.route_name,
      ← List.map_singleton, Volume.settle_names, Name.shown,
      Name.ofText_inj.mpr (Name.display_ofText h)]
  refine ⟨⟨_, hentry r.isName_treeEntry, r.bundleKey_eq ▸ hentry r.isName_bundleEntry⟩,
    fun names hne => ?_⟩
  rw [pathOf_fileKey, Volume.settled_join _ (Resource.isAbsolute_relativeKey names),
    Resource.route_relativeKey hne, Volume.settle_names]

theorem Folder.settled_relativeKey (f : Folder) (here : Place) {names : List Name}
    (h : names ≠ []) : Volume.settled (f.pathOf (Resource.relativeKey names)) here
      = Volume.settled f.base here ++ names.map Name.shown := by
  rw [pathOf, Volume.settled_join _ (Resource.isAbsolute_relativeKey names),
    Resource.route_relativeKey h, Volume.settle_names]

/-- The keys of a resource as paths of objects. -/
theorem ObjectPath.lists (r : Resource) :
    r.Lists (fun n => n.display.toList) ObjectPath.keyParts := by
  have hentry : ∀ {entry : String} (h : IsName entry), ObjectPath.keyParts (r.entryKey entry)
      = r.leadParts.filter (· ≠ []) ++ [(Name.ofText entry h).display.toList] := by
    intro entry h
    rw [ObjectPath.keyParts, r.splitOn_entryKey h, List.filter_append, Name.display_ofText]
    congr 1
    simp [h.1]
  exact ⟨⟨_, hentry r.isName_treeEntry, r.bundleKey_eq ▸ hentry r.isName_bundleEntry⟩,
    fun names _ => ObjectPath.keyParts_fileKey r.stem names⟩

theorem ObjectPath.keyParts_relativeKey {names : List Name} (h : names ≠ []) :
    keyParts (Resource.relativeKey names) = names.map fun n => n.display.toList := by
  rw [keyParts, Resource.splitOn_relativeKey h, List.filter_eq_self]
  intro part hp
  obtain ⟨n, -, rfl⟩ := List.mem_map.mp hp
  exact decide_eq_true fun he => n.isName_display.1 (String.toList_eq_nil_iff.mp he)

namespace Storage

variable {st : Storage} {here : Place} {r s : Resource} {w w' : World}

/-- Where a key leads in a storage if no links are on the way. -/
def siteOf (st : Storage) (here : Place) (key : String) : Site :=
  match st with
  | .folder f => .file (Volume.settled (f.pathOf key) here)
  | .bucket b => .object b.store (.ofKey key)

/-- The tree of `s` is stored where that of `r` is, or where a file of `r` can be. -/
def Reaches (st : Storage) (here : Place) (r s : Resource) : Prop :=
  st.siteOf here s.stem = st.siteOf here r.stem ∨
    ∃ path key, r.fileKey path = .ok key ∧ st.siteOf here s.stem = st.siteOf here key

theorem reaches_iff {α : Type} {spell : Name → α} {list : String → List α}
    (hsite : ∀ k l, st.siteOf here k = st.siteOf here l ↔ list k = list l)
    (hr : r.Lists spell list) : st.Reaches here r s ↔ Resource.Reaches spell list r s := by
  unfold Reaches Resource.Reaches
  simp only [hsite]
  constructor
  · rintro (h | ⟨path, key, hk, h⟩)
    · exact ⟨[], by simp [h]⟩
    · obtain ⟨names, hne, rfl⟩ := Resource.exists_names_of_fileKey hk
      exact ⟨names, h.trans (hr.file names hne)⟩
  · rintro ⟨names, h⟩
    by_cases hne : names = []
    · subst hne
      exact .inl (by simpa using h)
    · exact .inr ⟨_, _, r.fileKey_relativeKey hne, h.trans (hr.file names hne).symm⟩

theorem siteOf_folder_inj (f : Folder) (here : Place) (k l : String) :
    siteOf (.folder f) here k = siteOf (.folder f) here l ↔
      Volume.settled (f.pathOf k) here = Volume.settled (f.pathOf l) here := by
  simp [siteOf]

theorem siteOf_bucket_inj (b : Bucket) (here : Place) (k l : String) :
    siteOf (.bucket b) here k = siteOf (.bucket b) here l ↔
      ObjectPath.keyParts k = ObjectPath.keyParts l := by
  rw [← ObjectPath.ofKey_eq_iff]
  simp [siteOf]

/-- No two keys of two resources have one site just if neither tree is at or below the other. -/
theorem disjoint_siteOf_iff (hr : r.check = .ok ()) (hs : s.check = .ok ()) :
    (∀ k l, r.IsKey k → s.IsKey l → st.siteOf here k ≠ st.siteOf here l) ↔
      ¬ st.Reaches here r s ∧ ¬ st.Reaches here s r := by
  cases st with
  | folder f =>
    have hsite := siteOf_folder_inj f here
    rw [reaches_iff hsite (f.lists hr here), reaches_iff hsite (f.lists hs here),
      ← Resource.disjoint_iff (fun _ _ => Name.shown_inj.mp) (f.lists hr here) (f.lists hs here)]
    simp only [ne_eq, hsite]
  | bucket b =>
    have hsite := siteOf_bucket_inj b here
    rw [reaches_iff hsite (ObjectPath.lists r), reaches_iff hsite (ObjectPath.lists s),
      ← Resource.disjoint_iff (fun _ _ => String.toList_inj.mp) (ObjectPath.lists r)
        (ObjectPath.lists s)]
    simp only [ne_eq, hsite]

/-! ## Uploads and the resources apart -/

/-- The worlds after an upload, whatever comes of it. -/
inductive Uploaded (st : Storage) (r : Resource) (w : World) : World → Prop where
  | dir (source : Path) : Uploaded st r w (w.perform (st.uploadDir r source).run).2
  | zip (bundle : Path) : Uploaded st r w (w.perform (st.uploadZip r bundle).run).2

/-- No link is on the way to what is stored of a resource. -/
def Unlinked (st : Storage) (r : Resource) (w : World) : Prop :=
  match st with
  | .folder f => f.Unlinked r w.volume
  | .bucket _ => True

/-- Nothing of `s` is stored where something of `r` is, and an upload of `r` neither changes what is
stored of `s` nor keeps a file of `s` from being fetched. -/
structure Isolated (st : Storage) (here : Place) (r s : Resource) : Prop where
  disjoint : ∀ k l, r.IsKey k → s.IsKey l → st.siteOf here k ≠ st.siteOf here l
  kept : ∀ w w', w.volume.here = here → st.Unlinked r w → st.Uploaded r w w' →
    ∀ key, s.IsKey key → w'.content? (st.siteOf here key) = w.content? (st.siteOf here key)
  fetched : ∀ w w', w.volume.here = here → st.Unlinked r w → st.Unlinked s w → st.Uploaded r w w' →
    ∀ path c, (w.perform (st.getFile s path).run).1 = .ok c →
      (w'.perform (st.getFile s path).run).1 = .ok c

theorem Uploaded.folder {f : Folder} (hr : r.check = .ok ()) (h : Uploaded (.folder f) r w w') :
    f.Spares r w w' := by
  cases h with
  | dir source => exact Folder.uploadDir_moves hr source w
  | zip bundle => exact Folder.uploadZip_moves bundle w

theorem Uploaded.bucket {b : Bucket} (h : Uploaded (.bucket b) r w w') : b.Spares r w w' := by
  cases h with
  | dir source => exact Bucket.uploadDir_moves source w
  | zip bundle => exact Bucket.uploadZip_moves bundle w

theorem exists_fileKey_of_getFile {path : String} {c : Content}
    (h : (w.perform (st.getFile r path).run).1 = .ok c) : ∃ key, r.fileKey path = .ok key := by
  cases st <;>
  · obtain ⟨_, w₁, -, h⟩ := World.perform_bind_eq_ok.mp (Prod.ext h rfl)
    obtain ⟨key, w₂, hk, -⟩ := World.perform_bind_eq_ok.mp h
    exact ⟨key, mapError_eq_ok.mp (World.perform_check_eq_ok.mp hk).1⟩

theorem isolated_folder {f : Folder} (hr : r.check = .ok ()) (hs : s.check = .ok ())
    (h : ∀ k l, r.IsKey k → s.IsKey l → siteOf (.folder f) here k ≠ siteOf (.folder f) here l) :
    Isolated (.folder f) here r s := by
  have happart : ∀ key, s.IsKey key → ¬ f.Stored r here (Volume.settled (f.pathOf key) here) := by
    rintro key hl ⟨k, hk, he⟩
    exact h k key hk hl (congrArg Site.file he)
  refine ⟨h, ?_, ?_⟩
  · intro w w' hhere hw hup key hl
    have hspares := hup.folder hr hw
    rw [hhere] at hspares
    exact World.content?_file_congr fun mode c => hspares.face?_file (happart key hl)
  · intro w w' hhere hw hw' hup path c hget
    have hspares := hup.folder hr hw
    obtain ⟨key, hk⟩ := exists_fileKey_of_getFile hget
    have hread := (Folder.getFile_eq_ok hs hk).mp hget
    obtain ⟨p, mode, hp, -⟩ := Volume.readFile_eq_ok.mp hread
    refine (Folder.getFile_eq_ok hs hk).mpr ((hspares.readFile_eq_ok hp ?_).mpr hread)
    rw [(hw' key (.file hk)).place_of_leads hp, hhere]
    exact happart key (.file hk)

theorem isolated_bucket {b : Bucket} (hs : s.check = .ok ())
    (h : ∀ k l, r.IsKey k → s.IsKey l → siteOf (.bucket b) here k ≠ siteOf (.bucket b) here l) :
    Isolated (.bucket b) here r s := by
  have happart : ∀ name key, s.IsKey key →
      ¬ ∃ k, r.IsKey k ∧ b.store = .named name ∧ ObjectPath.ofKey k = .ofKey key := by
    rintro name key hl ⟨k, hk, -, he⟩
    exact h k key hk hl (congrArg (Site.object b.store) he)
  refine ⟨h, ?_, ?_⟩
  · intro w w' _ _ hup key hl
    cases hb : b.store with
    | service location => simp [siteOf, hb, World.content?]
    | named name =>
      simp only [siteOf, hb, World.content?]
      exact (hup.bucket name).kept _ (happart name key hl)
  · intro w w' _ _ _ hup path c hget
    obtain ⟨name, hb⟩ := Bucket.exists_named_of_getFile hget
    obtain ⟨key, hk⟩ := exists_fileKey_of_getFile hget
    have hspares := hup.bucket name
    obtain ⟨hfind, hpass, hpass'⟩ := (Bucket.getFile_eq_ok hs hk hb).mp hget
    exact (Bucket.getFile_eq_ok hs hk hb).mpr
      ⟨(hspares.kept _ (happart name key (.file hk))).trans hfind,
        (hspares.passes .get (by decide)).mpr hpass, (hspares.passes .body (by decide)).mpr hpass'⟩

theorem isolated_of_disjoint (hr : r.check = .ok ()) (hs : s.check = .ok ())
    (h : ∀ k l, r.IsKey k → s.IsKey l → st.siteOf here k ≠ st.siteOf here l) :
    st.Isolated here r s := by
  cases st with
  | folder f => exact isolated_folder hr hs h
  | bucket b => exact isolated_bucket hs h

/-! ## Resources whose owner and kind are names -/

theorem not_reaches_of_named (hr : r.Named) (hs : s.Named) (hne : r ≠ s) :
    ¬ st.Reaches here r s := by
  cases st with
  | folder f =>
    rw [reaches_iff (siteOf_folder_inj f here) (f.lists hr.check here)]
    exact hr.not_reaches (fun _ _ => Name.shown_inj.mp) _ (fun _ => f.settled_relativeKey here)
      hs hne
  | bucket b =>
    rw [reaches_iff (siteOf_bucket_inj b here) (ObjectPath.lists r)]
    exact hr.not_reaches (fun _ _ => String.toList_inj.mp) []
      (fun _ => ObjectPath.keyParts_relativeKey) hs hne

/-- Different resources are isolated if their owners and kinds are single names. -/
theorem isolated_of_named (hr : r.Named) (hs : s.Named) (hne : r ≠ s) : st.Isolated here r s :=
  isolated_of_disjoint hr.check hs.check ((disjoint_siteOf_iff hr.check hs.check).mpr
    ⟨not_reaches_of_named hr hs hne, not_reaches_of_named hs hr hne.symm⟩)

/-! ## All resources -/

/-- **A resource is isolated from another just if neither tree is stored at the place of the other
or below it.** -/
theorem isolated_iff (hr : r.check = .ok ()) (hs : s.check = .ok ()) :
    st.Isolated here r s ↔ ¬ st.Reaches here r s ∧ ¬ st.Reaches here s r := by
  rw [← disjoint_siteOf_iff hr hs]
  exact ⟨fun h => h.disjoint, isolated_of_disjoint hr hs⟩

/-- The next version of the model. -/
def nextVersion : Resource :=
  { model with version := 2 }

/-- A bucket for models. -/
def modelBucket : Bucket :=
  ⟨"memory", .named "models", .standard⟩

theorem named_model : model.Named :=
  ⟨by decide, by decide, by decide⟩

theorem named_nextVersion : nextVersion.Named :=
  ⟨by decide, by decide, by decide⟩

theorem isolated_iff_nextVersion :
    model.check = .ok () ∧ nextVersion.check = .ok () ∧
      Isolated (.folder storeFolder) [] model nextVersion ∧
      Isolated (.bucket modelBucket) [] model nextVersion := by
  have hne : model ≠ nextVersion := by decide
  exact ⟨named_model.check, named_nextVersion.check,
    (isolated_iff named_model.check named_nextVersion.check).mpr
      ⟨not_reaches_of_named named_model named_nextVersion hne,
        not_reaches_of_named named_nextVersion named_model hne.symm⟩,
    (isolated_iff named_model.check named_nextVersion.check).mpr
      ⟨not_reaches_of_named named_model named_nextVersion hne,
        not_reaches_of_named named_nextVersion named_model hne.symm⟩⟩

/-- An owner in two parts. -/
def ownerInTwoParts : Resource :=
  { model with owner := "robotics/arms" }

/-- A kind in two parts. -/
def kindInTwoParts : Resource :=
  { model with kind := "arms/models" }

/-- A file is fetched of one resource that was uploaded of the other. -/
theorem not_isolated_twoParts :
    (ownerInTwoParts.check = .ok () ∧ kindInTwoParts.check = .ok () ∧
      ownerInTwoParts ≠ kindInTwoParts) ∧
    (∀ st here, ¬ Isolated st here ownerInTwoParts kindInTwoParts) ∧
    (linkedSource.perform (modelBucket.getFile kindInTwoParts "e").run).1.isOk = false ∧
    (linkedSource.perform (modelBucket.uploadDir ownerInTwoParts src).run).1 = .ok () ∧
    ((linkedSource.perform (modelBucket.uploadDir ownerInTwoParts src).run).2.perform
      (modelBucket.getFile kindInTwoParts "e").run).1.isOk = true := by
  refine ⟨⟨by decide, by decide, by decide⟩, fun st here h => ?_, by decide +kernel,
    by decide +kernel, by decide +kernel⟩
  have hkey : ownerInTwoParts.bundleKey = kindInTwoParts.bundleKey := by decide
  exact h.disjoint _ _ .bundle .bundle (congrArg (st.siteOf here) hkey)

end Storage

end Depot
