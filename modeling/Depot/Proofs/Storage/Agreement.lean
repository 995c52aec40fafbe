import Depot.Proofs.Folder.Growth
import Depot.Proofs.Storage.Atomicity

/-!
# Where a folder and a bucket agree

After the first upload of files to a folder and to a bucket, requests for a file have the same
outcome (`SameOutcome`) if the path is invalid, if it names a file that was uploaded, or if it
leaves the directories of the tree by a name that is not in it (`Folder.Clear`). Everywhere else
they differ (`getFile_same_iff`): a bucket knows no directories and has no limits on names, so it
says that there is no file, where a folder says that the system failed, be it because the path leads
to a directory (`not_same_directory`), because it goes on behind a file, or because the system does
not take it.

The requests are `get_file` after `upload_dir`, of a `LocalStorage` and of a `CloudStorage`. Out of
scope: owners and kinds by which the tree is not below the base of the folder.
-/

namespace Depot

open Volume

namespace Folder

/-- What a folder and a bucket know alike. -/
inductive Clear (f : Folder) (r : Resource) (files : List SourceFile) (names : List Name) :
    Prop where
  | uploaded {file : SourceFile} (h : file ∈ files)
      (hkey : file.key = Resource.relativeKey names)
  | missing (h : f.Missing r files names)

end Folder

namespace Bucket

variable {b : Bucket} {r : Resource} {w w' : World} {name stem : String} {files : List SourceFile}
  {names : List Name} {path : String}

/-- What is put was read. -/
theorem read_of_uploads (hb : b.store = .named name) (h : Uploads (b.putFile stem) files w w') :
    ∀ file ∈ files, ∃ c, w.volume.readFile file.path = .ok c := by
  induction h with
  | nil w => exact fun _ hf => absurd hf List.not_mem_nil
  | cons hopen hput _ ih =>
    obtain ⟨c, s, hread, -, rfl⟩ := putFile_eq_ok hb hput
    exact List.forall_mem_cons.mpr ⟨⟨c, bind_eq_ok.mpr ⟨_, hopen, hread⟩⟩, ih⟩

theorem passes_of_empty (hb : b.store = .named name) (hempty : w.store name = .empty)
    (h : Uploads (b.putFile stem) files w w') {step : StoreStep} (hs : step ≠ .put) :
    (w'.store name).Passes step := by
  refine ((spares_of_uploads hb h).passes step hs).mpr ?_
  rw [hempty]
  rfl

variable (hr : r.check = .ok ()) (hb : b.store = .named name) (hempty : w.store name = .empty)
  (h : Uploads (b.putFile r.stem) files w w')
  (hkeys : ∀ file ∈ files, ∃ names, names ≠ [] ∧ file.key = Resource.relativeKey names)
  (hk : r.fileKey path = .ok (r.stem ++ "/" ++ Resource.relativeKey names))
include hr hb hempty h hkeys hk

/-- The last file of a key is fetched from a bucket that was empty. -/
theorem getFile_of_last {pre post : List SourceFile} {file : SourceFile}
    (hsplit : files = pre ++ file :: post) (hlast : ∀ other ∈ post, other.key ≠ file.key)
    (hkey : file.key = Resource.relativeKey names) :
    ∃ c, w.volume.readFile file.path = .ok c ∧
      (w'.perform (b.getFile r path).run).1 = .ok c := by
  have hobjects : ∀ other ∈ post, ObjectPath.ofKey (r.stem ++ "/" ++ other.key)
      ≠ .ofKey (r.stem ++ "/" ++ file.key) := by
    intro other ho he
    obtain ⟨names', -, hkey'⟩ := hkeys other (by simp [hsplit, ho])
    rw [hkey', hkey] at he
    exact hlast other ho (hkey'.trans ((ObjectPath.ofKey_fileKey_inj he).trans hkey.symm))
  obtain ⟨c, hread, hfind⟩ := found_of_last hb (hsplit ▸ h) hobjects
  rw [hkey] at hfind
  exact ⟨c, hread, (getFile_eq_ok hr hk hb).mpr ⟨hfind, passes_of_empty hb hempty h (by decide),
    passes_of_empty hb hempty h (by decide)⟩⟩

/-- What was not uploaded is not found in a bucket that was empty. -/
theorem getFile_of_not_uploaded (hno : ∀ file ∈ files, file.key ≠ Resource.relativeKey names) :
    (w'.perform (b.getFile r path).run).1
      = .error (.notFound (r.stem ++ "/" ++ Resource.relativeKey names)
        (some (.store .notFound))) := by
  refine perform_getFile_missing hr hk hb ?_ (passes_of_empty hb hempty h (by decide))
  rw [(spares_of_uploads hb h).kept _ ?_, hempty]
  · rfl
  · rintro ⟨file, hf, he⟩
    obtain ⟨names', -, hkey'⟩ := hkeys file hf
    rw [hkey'] at he
    exact hno file hf (hkey'.trans (ObjectPath.ofKey_fileKey_inj he).symm)

end Bucket

namespace Storage

/-- Outcomes of requests for a file that are the same for whoever asks. -/
inductive SameOutcome : Except StorageError Content → Except StorageError Content → Prop where
  | content (c : Content) : SameOutcome (.ok c) (.ok c)
  | invalid (d : Defect) : SameOutcome (.error (.invalid d)) (.error (.invalid d))
  | notFound (key : String) (cause cause' : Option Cause) :
      SameOutcome (.error (.notFound key cause)) (.error (.notFound key cause'))

/-- Whether a request failed for a reason that is not the caller's. -/
def isFailed : Except StorageError Content → Bool
  | .error (.backend ..) => true
  | _ => false

theorem SameOutcome.not_failed {x y : Except StorageError Content} (h : SameOutcome x y) :
    isFailed x = false := by
  cases h <;> rfl

variable {f : Folder} {b : Bucket} {r : Resource} {w w₁ w₂ : World} {source : Path}

/-- A path that has no key is refused. -/
theorem getFile_of_defect (s : Storage) {path : String} {d : Defect} (hr : r.check = .ok ())
    (hk : r.fileKey path = .error d) (w : World) :
    (w.perform (s.getFile r path).run).1 = .error (.invalid d) := by
  have hcheck : w.perform (Action.check ((r.fileKey path).mapError StorageError.invalid)).run
      = (.error (.invalid d), w) := by
    rw [hk]
    rfl
  cases s with
  | folder f =>
    rw [getFile, Folder.getFile, World.perform_bind_of_ok (World.perform_checkResource hr w),
      World.perform_bind_action, hcheck]
  | bucket b =>
    rw [getFile, Bucket.getFile, World.perform_bind_of_ok (World.perform_checkResource hr w),
      World.perform_bind_action, hcheck]

theorem sameOutcome_notFound {key : String} {cause : Option Cause} {x : Except IoKind Content} :
    SameOutcome (x.mapError fun k => .ofIo key (.ofKind k)) (.error (.notFound key cause)) ↔
      x = .error .notFound := by
  constructor
  · intro h
    cases x with
    | ok c => cases h
    | error k =>
      by_contra hk
      have hof : StorageError.ofIo key (.ofKind k)
          = .backend (.access key) (some (.io (.ofKind k))) :=
        if_neg fun he : k = .notFound => hk (congrArg Except.error he)
      rw [Except.mapError, hof] at h
      exact absurd h.not_failed (by simp [isFailed])
  · rintro rfl
    exact .notFound key _ cause

/-- A file that was uploaded is fetched alike from a folder and a bucket in which nothing was. -/
theorem sameOutcome_of_uploaded {files : List SourceFile} {names : List Name} {name path : String}
    {d : Place} (hr : r.check = .ok ()) (hb : b.store = .named name)
    (hempty : w.store name = .empty) (huploads : Uploads (b.putFile r.stem) files w w₂)
    (hkeys : ∀ file ∈ files, ∃ names, names ≠ [] ∧ file.key = Resource.relativeKey names)
    (hgrown : f.Grown r files w.volume w₁.volume d)
    (hk : r.fileKey path = .ok (r.stem ++ "/" ++ Resource.relativeKey names)) {file : SourceFile}
    (hf : file ∈ files) (hkey : file.key = Resource.relativeKey names) :
    SameOutcome (w₁.perform (f.getFile r path).run).1 (w₂.perform (b.getFile r path).run).1 := by
  obtain ⟨pre, last, post, hsplit, hsame, hlast⟩ := SourceFile.exists_last hf
  replace hlast : ∀ other ∈ post, other.key ≠ last.key := fun other ho => hsame ▸ hlast other ho
  obtain ⟨names', mode, c, -, -, hleads, hface, hreads, hread⟩ :=
    hgrown.stored pre last post hsplit hlast
  obtain ⟨c', hread', hbucket⟩ :=
    Bucket.getFile_of_last hr hb hempty huploads hkeys hk hsplit hlast (hsame.trans hkey)
  obtain rfl := Except.ok.inj (hread.symm.trans hread')
  rw [hsame.trans hkey] at hleads
  have hfolder := (Folder.getFile_eq_ok hr hk).mpr
    (readFile_eq_ok.mpr ⟨_, mode, hleads, hface, hreads⟩)
  rw [hfolder, hbucket]
  exact .content c

/-- **After the first upload to a folder and to a bucket, requests for a file have the same outcome
just if the path is invalid, or names a file that was uploaded, or leaves the directories of the
tree by a name that is not in it.** -/
theorem getFile_same_iff (hr : r.check = .ok ()) (hd : r.Descends) (hbare : f.Bare w.volume)
    (hempty : ∀ name, b.store = .named name → w.store name = .empty)
    (h₁ : w.perform (f.uploadDir r source).run = (.ok (), w₁))
    (h₂ : w.perform (b.uploadDir r source).run = (.ok (), w₂)) (path : String) :
    SameOutcome (w₁.perform (f.getFile r path).run).1 (w₂.perform (b.getFile r path).run).1 ↔
      ∀ key, r.fileKey path = .ok key → ∃ names, names ≠ [] ∧
        key = r.stem ++ "/" ++ Resource.relativeKey names ∧
        f.Clear r (w.volume.filesIn source) names := by
  obtain ⟨files, hne, hcollect⟩ : ∃ files, files ≠ [] ∧
      w.perform (collect source).run = (.ok files, w) := by
    rw [Bucket.uploadDir, World.perform_bind_of_ok (World.perform_checkResource hr w)] at h₂
    obtain ⟨-, files, hne, hcollect, -⟩ := uploads_of_uploadEach h₂
    exact ⟨files, hne, hcollect⟩
  obtain ⟨name, hb, hdir, huploads⟩ := Bucket.uploads_of_uploadDir hr hcollect h₂
  have hkeys := exists_names_of_collect hdir hcollect
  obtain ⟨d, hgrown⟩ := hbare.grown hr hd hcollect (Bucket.read_of_uploads hb huploads) h₁
  have hfiles : w.volume.filesIn source = files := by
    obtain ⟨⟨found, hwalk, rfl⟩, -⟩ := collect_eq_ok.mp hcollect
    rw [Volume.filesIn, hdir, hwalk]
  rw [hfiles]
  cases hk : r.fileKey path with
  | error e =>
    have hfolder : (w₁.perform (f.getFile r path).run).1 = .error (.invalid e) :=
      getFile_of_defect (.folder f) hr hk w₁
    have hbucket : (w₂.perform (b.getFile r path).run).1 = .error (.invalid e) :=
      getFile_of_defect (.bucket b) hr hk w₂
    rw [hfolder, hbucket]
    exact ⟨fun _ key hkey => absurd hkey (by simp), fun _ => .invalid e⟩
  | ok key =>
    obtain ⟨names, hnames, rfl⟩ := Resource.exists_names_of_fileKey hk
    by_cases hup : ∃ file ∈ files, file.key = Resource.relativeKey names
    · obtain ⟨file, hf, hkey⟩ := hup
      exact ⟨fun _ key he => ⟨names, hnames, (Except.ok.inj he).symm, .uploaded hf hkey⟩, fun _ =>
        sameOutcome_of_uploaded hr hb (hempty name hb) huploads hkeys hgrown hk hf hkey⟩
    · have hno : ∀ file ∈ files, file.key ≠ Resource.relativeKey names := fun file hf he =>
        hup ⟨file, hf, he⟩
      rw [Folder.perform_getFile hr hk, Bucket.getFile_of_not_uploaded hr hb (hempty name hb)
        huploads hkeys hk hno, sameOutcome_notFound]
      constructor
      · intro hmissing key he
        refine ⟨names, hnames, (Except.ok.inj he).symm, .missing ?_⟩
        obtain h | ⟨k, hk', hfails⟩ := hgrown.missing_or_fails hnames hne hno
        · exact h
        · exact absurd (Except.error.inj (hfails.symm.trans hmissing)) hk'
      · intro h
        obtain ⟨names', hnames', he, hclear⟩ := h _ rfl
        have hsame := (String.append_right_inj _).mp he
        cases hclear with
        | uploaded hf hkey => exact absurd (hkey.trans hsame.symm) (hno _ hf)
        | missing h => exact hsame ▸ hgrown.readFile_missing h

/-! ## An empty folder and an empty bucket -/

/-- A file to upload stands in a directory, and nothing is stored. -/
def emptyStore : World :=
  .ofVolume ⟨.directory 0o755
    [(.ofText "src" isName_src, .directory 0o755
       [(.ofText "a" isName_a, .directory 0o755
         [(.ofText "e" isName_e, .file 0o644 (.plain [0x31]))])]),
     (.ofText "store" isName_store, .directory 0o755 [])], [], none⟩ ""

theorem bare_emptyStore : storeFolder.Bare emptyStore.volume := by
  have hopen : emptyStore.volume.openFile storeFolder.base
      = .ok [.ofText "store" isName_store] := by
    decide +kernel
  refine ⟨_, 0o755, leads_of_openFile hopen, rfl, fun x hx => ?_⟩
  obtain ⟨n, q, rfl⟩ := List.exists_cons_of_ne_nil hx
  rfl

theorem descends_model : model.Descends :=
  ⟨by decide, by decide, by decide⟩

/-- The world after an upload to the bucket. -/
def afterBucketUpload (w : World) : World :=
  (w.perform (modelBucket.uploadDir model src).run).2

theorem perform_uploadDir_modelBucket
    (h : (w.perform (modelBucket.uploadDir model src).run).1 = .ok ()) :
    w.perform (modelBucket.uploadDir model src).run = (.ok (), afterBucketUpload w) :=
  Prod.ext h rfl

/-- The names of the file to upload. -/
def fileNames : List Name :=
  [.ofText "a" isName_a, .ofText "e" isName_e]

theorem getFile_same_iff_emptyStore :
    model.check = .ok () ∧ model.Descends ∧ storeFolder.Bare emptyStore.volume ∧
      (∀ name, modelBucket.store = .named name → emptyStore.store name = .empty) ∧
      emptyStore.perform (storeFolder.uploadDir model src).run = (.ok (), afterUpload emptyStore) ∧
      emptyStore.perform (modelBucket.uploadDir model src).run
        = (.ok (), afterBucketUpload emptyStore) ∧
      SameOutcome ((afterUpload emptyStore).perform (storeFolder.getFile model "a/e").run).1
        ((afterBucketUpload emptyStore).perform (modelBucket.getFile model "a/e").run).1 := by
  have hr : model.check = .ok () := by decide
  have hempty : ∀ name, modelBucket.store = .named name → emptyStore.store name = .empty :=
    fun name _ => rfl
  have h₁ : emptyStore.perform (storeFolder.uploadDir model src).run
      = (.ok (), afterUpload emptyStore) :=
    Prod.ext (by decide +kernel) rfl
  have h₂ : emptyStore.perform (modelBucket.uploadDir model src).run
      = (.ok (), afterBucketUpload emptyStore) :=
    perform_uploadDir_modelBucket (by decide +kernel)
  have hkey : model.fileKey "a/e" = .ok (model.stem ++ "/" ++ Resource.relativeKey fileNames) := by
    decide +kernel
  have hfile : ⟨Resource.relativeKey fileNames, .ofString "src/a/e"⟩
      ∈ emptyStore.volume.filesIn src := by
    decide +kernel
  refine ⟨hr, descends_model, bare_emptyStore, hempty, h₁, h₂,
    (getFile_same_iff hr descends_model bare_emptyStore hempty h₁ h₂ "a/e").mpr fun key hk => ?_⟩
  exact ⟨fileNames, by simp [fileNames], Except.ok.inj (hk.symm.trans hkey), .uploaded hfile rfl⟩

/-- A directory of the tree is a failure for whoever asks the folder, and nothing for whoever asks
the bucket. -/
theorem not_same_directory :
    model.check = .ok () ∧ storeFolder.Bare emptyStore.volume ∧
      (∀ name, modelBucket.store = .named name → emptyStore.store name = .empty) ∧
      emptyStore.perform (storeFolder.uploadDir model src).run = (.ok (), afterUpload emptyStore) ∧
      emptyStore.perform (modelBucket.uploadDir model src).run
        = (.ok (), afterBucketUpload emptyStore) ∧
      ¬ SameOutcome ((afterUpload emptyStore).perform (storeFolder.getFile model "a").run).1
        ((afterBucketUpload emptyStore).perform (modelBucket.getFile model "a").run).1 := by
  refine ⟨by decide, bare_emptyStore, fun name _ => rfl, Prod.ext (by decide +kernel) rfl,
    perform_uploadDir_modelBucket (by decide +kernel), fun h => ?_⟩
  have hfailed : isFailed
      ((afterUpload emptyStore).perform (storeFolder.getFile model "a").run).1 = true := by
    decide +kernel
  exact absurd (hfailed.symm.trans h.not_failed) (by simp)

end Storage

end Depot
