import Depot.Proofs.Bucket.Upload
import Depot.Proofs.Folder.RoundTrip
import Depot.Storage

/-!
# What is uploaded is what is fetched

An upload of a folder that succeeds leaves every file where `getFile` finds it, with the content
that its source had, and leaves everything else that is stored as it was
(`Storage.uploadDir_roundTrip`). It holds of folders and of buckets:

* what may be stored, on disk or as an object, is at a `Site`; `World.content?` says what is there,
* `Storage.KeyAt` are the sites to which a key leads, `Storage.BundleAt` that of a bundle that an
  upload discards,
* `Storage.Ready` says what is asked of the state before: that the tree is plain and away from what
  is uploaded, and that what was written can be read again.

A folder discards the bundle of the resource if the system lets it, and goes on if not. A file that
is stored in place of another keeps its permissions, and so may be one that cannot be fetched. Both
are seen in `not_discarded_lockedVersions`.

This is `upload_dir` followed by `get_file` (the specification, section 8). Out of scope: uploads
that fail, and sources that are stored in the destination itself (`Depot.Proofs.Storage.Reupload`).
-/

namespace Depot

/-! ## What is stored -/

/-- Where a content can be stored: in a file, or as an object of a store. -/
inductive Site where
  | file (p : Place)
  | object (store : StoreRef) (p : ObjectPath)
  deriving DecidableEq

/-- The content of a file. -/
def Face.content? : Face → Option Content
  | .file _ c => some c
  | _ => none

theorem Face.content?_eq_some {fc : Face} {c : Content} :
    fc.content? = some c ↔ ∃ mode, fc = .file mode c := by
  cases fc <;> simp [Face.content?]

namespace World

variable {w w' : World} {p : Place} {c : Content}

/-- The content at a site; services are out of reach. -/
def content? (w : World) : Site → Option Content
  | .file p => (w.volume.face? p).bind Face.content?
  | .object (.named name) p => (w.store name).find? p
  | .object (.service _) _ => none

theorem content?_file_eq_some :
    w.content? (.file p) = some c ↔ ∃ mode, w.volume.face? p = some (.file mode c) := by
  rw [content?, Option.bind_eq_some_iff]
  constructor
  · rintro ⟨fc, hfc, hc⟩
    obtain ⟨mode, rfl⟩ := Face.content?_eq_some.mp hc
    exact ⟨mode, hfc⟩
  · rintro ⟨mode, hm⟩
    exact ⟨_, hm, rfl⟩

theorem content?_file_eq_none :
    w.content? (.file p) = none ↔ ∀ mode c, w.volume.face? p ≠ some (.file mode c) := by
  rw [Option.eq_none_iff_forall_ne_some]
  constructor
  · intro h mode c hm
    exact h c (content?_file_eq_some.mpr ⟨mode, hm⟩)
  · intro h c hc
    obtain ⟨mode, hm⟩ := content?_file_eq_some.mp hc
    exact h mode c hm

/-- Files with the same modes and contents have the same contents. -/
theorem content?_file_congr
    (h : ∀ mode c,
      w'.volume.face? p = some (.file mode c) ↔ w.volume.face? p = some (.file mode c)) :
    w'.content? (.file p) = w.content? (.file p) :=
  Option.ext fun c => by
    rw [content?_file_eq_some, content?_file_eq_some]
    exact exists_congr fun mode => h mode c

/-- What is removed is gone, and nothing else. -/
theorem content?_without_cases (w : World) (path : Path) (p : Place) :
    content? { w with volume := w.volume.without path } (.file p) = w.content? (.file p) ∨
      w.volume.Names path p ∧
        content? { w with volume := w.volume.without path } (.file p) = none := by
  rw [content?, content?]
  obtain hface | ⟨hnamed, hnone⟩ := w.volume.face?_without_cases path p
  · exact .inl (congrArg (Option.bind · Face.content?) hface)
  · exact .inr ⟨hnamed, congrArg (Option.bind · Face.content?) hnone⟩

/-- Whether the system lets the entry at a site be removed. -/
def MayRemove (w : World) : Site → Prop
  | .file p => w.volume.canChange p.dropLast = true
  | .object .. => True

/-- Whether nothing at a site keeps what is written there from being read: a file that is written to
keeps its permissions, and the calls that read an object may fail. -/
def MayRead (w : World) : Site → Prop
  | .file p => ∀ mode c, w.volume.face? p = some (.file mode c) → mode.reads = true
  | .object (.named name) _ => (w.store name).Passes .get ∧ (w.store name).Passes .body
  | .object (.service _) _ => False

end World

namespace Storage

variable {s : Storage} {r : Resource} {source : Path} {files : List SourceFile} {w w' : World}

/-- The sites to which a key leads in a world. -/
def KeyAt (s : Storage) (w : World) (key : String) : Site → Prop
  | .file p =>
    match s with
    | .folder f => w.volume.Leads (f.pathOf key) p
    | .bucket _ => False
  | .object store p =>
    match s with
    | .folder _ => False
    | .bucket b => b.store = store ∧ p = .ofKey key

/-- The site of the bundle that an upload of files discards. -/
def BundleAt (s : Storage) (r : Resource) (w : World) : Site → Prop
  | .file p =>
    match s with
    | .folder f => w.volume.Names (f.pathOf r.bundleKey) p
    | .bucket _ => False
  | .object .. => False

/-- What is asked of the state before an upload to a folder: that its tree, which is where the path
of the tree leads afterwards, consists of plain files and directories and holds no file that is
uploaded. -/
def Ready (s : Storage) (r : Resource) (files : List SourceFile) (w w' : World) : Prop :=
  match s with
  | .folder f => ∀ d, w'.volume.Leads (f.pathOf r.stem) d →
      f.Plain r w.volume d ∧ ∀ file ∈ files, f.Outside r w.volume d file
  | .bucket _ => True

/-- What an upload of files from one world to another has to do. -/
structure RoundTrip (s : Storage) (r : Resource) (files : List SourceFile) (w w' : World) :
    Prop where
  stored : ∀ file ∈ files, ∃ c site, w.volume.readFile file.path = .ok c ∧
    s.KeyAt w' (r.stem ++ "/" ++ file.key) site ∧ w'.content? site = some c ∧
    (w.MayRead site → (w'.perform (s.getFile r file.key).run).1 = .ok c)
  kept : ∀ site, (∀ file ∈ files, ¬ s.KeyAt w' (r.stem ++ "/" ++ file.key) site) →
    ¬ s.BundleAt r w site → w'.content? site = w.content? site
  discarded : ∀ site, s.BundleAt r w site → w.MayRemove site → w'.content? site = none

theorem roundTrip_folder {f : Folder} (hr : r.check = .ok ())
    (hfiles : w.perform (collect source).run = (.ok files, w))
    (hkeys : (files.map SourceFile.key).Nodup)
    (hup : w.perform (f.uploadDir r source).run = (.ok (), w'))
    (hready : Ready (.folder f) r files w w') : RoundTrip (.folder f) r files w w' := by
  obtain ⟨d, hd⟩ := Folder.exists_tree hr hup
  obtain ⟨hplain, hout⟩ := hready d hd
  obtain ⟨ds, rfl, hrest, hfills, hdeposits⟩ :=
    Folder.exists_deposits hr hfiles hkeys hup hd hplain hout
  refine ⟨?_, ?_, ?_⟩
  · intro file hf
    obtain ⟨e, he, rfl⟩ := List.mem_map.mp hf
    obtain ⟨⟨names, hne, hkey, -⟩, hleads, hread, mode, hface, hreads⟩ := hdeposits e he
    refine ⟨e.content, .file e.place, hread, hleads,
      World.content?_file_eq_some.mpr ⟨mode, hface⟩, fun hmay => ?_⟩
    rw [hkey] at hleads ⊢
    exact (Folder.getFile_eq_ok hr (r.fileKey_relativeKey hne)).mpr
      (Volume.readFile_eq_ok.mpr ⟨e.place, mode, hleads, hface, hreads hmay⟩)
  · intro site hkey hbundle
    cases site with
    | file p =>
      refine World.content?_file_congr fun mode c =>
        (hplain.spares_of_fills hfills).face?_file ?_
      rintro (hnamed | ⟨e, he, rfl⟩)
      · exact hbundle hnamed
      · exact hkey e.file (List.mem_map_of_mem he) (hdeposits e he).leads
    | object store p =>
      rw [hrest]
      cases store <;> rfl
  · intro site hbundle hmay
    cases site with
    | file p =>
      obtain ⟨t, ht, rfl⟩ := hbundle
      have hname := (Folder.spot_of_find_bundle hr ht).2.1
      rw [World.MayRemove, Volume.Spot.place, hname, Option.toList_some,
        List.dropLast_concat] at hmay
      exact World.content?_file_eq_none.mpr (Folder.face?_discarded hr hfills hplain hd
        (fun e he => (hdeposits e he).within) ht hmay)
    | object name p => exact absurd hbundle id

/-- Files of different keys are different objects. -/
theorem nodup_objects (r : Resource)
    (hnames : ∀ file ∈ files, ∃ names, names ≠ [] ∧ file.key = Resource.relativeKey names)
    (hkeys : (files.map SourceFile.key).Nodup) :
    (files.map fun file => ObjectPath.ofKey (r.stem ++ "/" ++ file.key)).Nodup := by
  refine List.Nodup.map_on ?_ (List.Nodup.of_map _ hkeys)
  intro x hx y hy hxy
  obtain ⟨names, -, hn⟩ := hnames x hx
  obtain ⟨names', -, hn'⟩ := hnames y hy
  rw [hn, hn'] at hxy
  exact List.inj_on_of_nodup_map hkeys hx hy
    (hn.trans ((ObjectPath.ofKey_fileKey_inj hxy).trans hn'.symm))

theorem roundTrip_bucket {b : Bucket} (hr : r.check = .ok ())
    (hfiles : w.perform (collect source).run = (.ok files, w))
    (hkeys : (files.map SourceFile.key).Nodup)
    (hup : w.perform (b.uploadDir r source).run = (.ok (), w')) :
    RoundTrip (.bucket b) r files w w' := by
  obtain ⟨name, hb, hdir, huploads⟩ := Bucket.uploads_of_uploadDir hr hfiles hup
  have hnames := exists_names_of_collect hdir hfiles
  have hobjects := nodup_objects r hnames hkeys
  obtain ⟨hvolume, hstores⟩ := Bucket.elsewhere_of_uploads hb huploads
  refine ⟨?_, ?_, ?_⟩
  · intro file hf
    obtain ⟨c, hread, hfind⟩ := Bucket.found_of_uploads hb huploads hobjects file hf
    obtain ⟨names, hne, hn⟩ := hnames file hf
    refine ⟨c, .object (.named name) _, hread, ⟨hb, rfl⟩, hfind, ?_⟩
    rintro ⟨hget, hbody⟩
    have hpasses := (Bucket.spares_of_uploads hb huploads).passes
    rw [hn] at hfind ⊢
    exact (Bucket.getFile_eq_ok hr (r.fileKey_relativeKey hne) hb).mpr
      ⟨hfind, (hpasses .get (by decide)).mpr hget, (hpasses .body (by decide)).mpr hbody⟩
  · intro site hkey _
    cases site with
    | file p => rw [World.content?, World.content?, hvolume]
    | object store p =>
      cases store with
      | service location => rfl
      | named other =>
        by_cases ho : other = name
        · subst ho
          refine (Bucket.spares_of_uploads hb huploads).kept p ?_
          rintro ⟨file, hf, hp⟩
          exact hkey file hf ⟨hb, hp⟩
        · rw [World.content?, World.content?, hstores other ho]
  · intro site hbundle _
    cases site <;> exact absurd hbundle id

/-- **An upload that succeeds stores every file that was collected under its key, with the content
that its source had, and gives it back if it may be read; nothing else that is stored changes, but
for the bundle of the resource in a folder, which is gone if the system lets it be removed.** -/
theorem uploadDir_roundTrip (hr : r.check = .ok ())
    (hfiles : w.perform (collect source).run = (.ok files, w))
    (hkeys : (files.map SourceFile.key).Nodup)
    (hup : w.perform (s.uploadDir r source).run = (.ok (), w'))
    (hready : s.Ready r files w w') : s.RoundTrip r files w w' := by
  cases s with
  | folder f => exact roundTrip_folder hr hfiles hkeys hup hready
  | bucket b => exact roundTrip_bucket hr hfiles hkeys hup

/-! ## A folder of models -/

/-- A folder is ready if its tree, which can be opened afterwards, and its bundle are plain nodes,
and if every file can be opened at another place. -/
theorem ready_of_openFile {f : Folder} {d b : Place}
    (hd : w'.volume.openFile (f.pathOf r.stem) = .ok d)
    (hb : w.volume.Names (f.pathOf r.bundleKey) b)
    (hplain : ∀ p ∈ [d, b], (w.volume.node? p).all Node.isPlain = true)
    (hout : ∀ file ∈ files, ∃ p ∈ (w.volume.openFile file.path).toOption, ¬ d <+: p ∧ p ≠ b) :
    Ready (.folder f) r files w w' := by
  intro d' hd'
  obtain rfl := (Volume.leads_of_openFile hd).inj hd'
  refine ⟨Folder.plain_of_isPlain (hplain d List.mem_cons_self) fun p hp =>
    hplain p (hb.inj hp ▸ List.mem_cons_of_mem _ List.mem_cons_self), fun file hf => ?_⟩
  obtain ⟨p, hp, hnotin, hne⟩ := hout file hf
  have hopen : w.volume.openFile file.path = .ok p := by
    cases h : w.volume.openFile file.path with
    | error k => simp [h, Except.toOption] at hp
    | ok q => simpa [h, Except.toOption] using hp
  exact ⟨p, Volume.leads_of_openFile hopen, hnotin, fun h => hne (h.inj hb)⟩

/-- A model with a version. -/
def model : Resource :=
  ⟨"robotics", "models", "e6af5323-db4d-4db3-a402-a8992d6c8d99", 1⟩

/-- The folder in which models are stored. -/
def storeFolder : Folder :=
  ⟨.ofString "store"⟩

/-- The path of the files to upload. -/
def src : Path :=
  .ofString "src"

/-- A world with files to upload, and with a directory for the versions of the model. -/
def worldWith (files : List (Name × Node)) (mode : Mode) (versions : List (Name × Node)) : World :=
  .ofVolume ⟨.directory 0o755
    [(.ofText "src" isName_src, .directory 0o755 files),
     (.ofText "store" isName_store, .directory 0o755
       [(.ofText "robotics" (by decide), .directory 0o755
         [(.ofText "models" (by decide), .directory 0o755
           [(.ofText "e6af5323-db4d-4db3-a402-a8992d6c8d99" (by decide),
             .directory mode versions)])])])], [], none⟩ ""

/-- The place of an entry beside the tree of the model. -/
def versionsPlace (entry : String) (h : IsName entry) : Place :=
  [.ofText "store" isName_store, .ofText "robotics" (by decide), .ofText "models" (by decide),
    .ofText "e6af5323-db4d-4db3-a402-a8992d6c8d99" (by decide), .ofText entry h]

/-- The place of the tree of the model. -/
def treePlace : Place :=
  versionsPlace model.treeEntry model.isName_treeEntry

/-- The place of the bundle of the model. -/
def bundlePlace : Place :=
  versionsPlace model.bundleEntry model.isName_bundleEntry

/-- A tree with a file and a bundle beside it are stored, and there is nothing to upload. -/
def treeAndBundle : World :=
  worldWith [] 0o755
    [(.ofText model.treeEntry model.isName_treeEntry, .directory 0o755
       [(.ofText "e" isName_e, .file 0o644 (.plain [0x31]))]),
     (.ofText model.bundleEntry model.isName_bundleEntry, .file 0o644 (.plain [0x32]))]

/-- The world after an upload to the folder. -/
def afterUpload (w : World) : World :=
  (w.perform (storeFolder.uploadDir model src).run).2

theorem perform_uploadDir_model (h : (w.perform (storeFolder.uploadDir model src).run).1 = .ok ()) :
    w.perform (uploadDir (.folder storeFolder) model src).run = (.ok (), afterUpload w) :=
  Prod.ext h rfl

/-- To upload are an empty file in a directory, a link to a file, and the file, of which the tree
holds an older one, next to one that is not uploaded. -/
def linkedSource : World :=
  worldWith
    [(.ofText "b" (by decide), .directory 0o755 [(.ofText "c" (by decide), .file 0o644 .empty)]),
     (.ofText "d" (by decide), .link (.ofString "b/../e")),
     (.ofText "e" isName_e, .file 0o644 (.plain [0x31]))]
    0o755
    [(.ofText "1" (by decide), .directory 0o755
       [(.ofText "a" (by decide), .file 0o644 (.plain [0x32])),
        (.ofText "e" isName_e, .file 0o600 (.plain [0x33]))]),
     (.ofText "1.zip" (by decide), .file 0o644 .empty)]

/-- The files to upload. -/
def foundFiles : List Found :=
  [⟨[.ofText "b" (by decide), .ofText "c" (by decide)], .ofString "src/b/c"⟩,
   ⟨[.ofText "d" (by decide)], .ofString "src/d"⟩,
   ⟨[.ofText "e" isName_e], .ofString "src/e"⟩]

theorem uploadDir_roundTrip_linkedSource :
    model.check = .ok () ∧
      linkedSource.perform (collect src).run = (.ok (foundFiles.map .ofFound), linkedSource) ∧
      ((foundFiles.map SourceFile.ofFound).map SourceFile.key).Nodup ∧
      linkedSource.perform (uploadDir (.folder storeFolder) model src).run
        = (.ok (), afterUpload linkedSource) ∧
      Ready (.folder storeFolder) model (foundFiles.map .ofFound) linkedSource
        (afterUpload linkedSource) ∧
      RoundTrip (.folder storeFolder) model (foundFiles.map .ofFound) linkedSource
        (afterUpload linkedSource) := by
  have hr : model.check = .ok () := by decide
  have hfiles : linkedSource.perform (collect src).run
      = (.ok (foundFiles.map .ofFound), linkedSource) :=
    collect_eq_ok.mpr ⟨⟨foundFiles, by decide +kernel, rfl⟩, rfl⟩
  have hkeys : ((foundFiles.map SourceFile.ofFound).map SourceFile.key).Nodup := by decide +kernel
  have hup : linkedSource.perform (uploadDir (.folder storeFolder) model src).run
      = (.ok (), afterUpload linkedSource) := perform_uploadDir_model (by decide +kernel)
  have hready : Ready (.folder storeFolder) model (foundFiles.map .ofFound) linkedSource
      (afterUpload linkedSource) :=
    ready_of_openFile (d := treePlace) (b := bundlePlace) (by decide +kernel) (by decide +kernel)
      (by decide +kernel) (by decide +kernel)
  exact ⟨hr, hfiles, hkeys, hup, hready, uploadDir_roundTrip hr hfiles hkeys hup hready⟩

/-- The directory of the versions may not be changed, and the file that is uploaded may not be read
where it is stored. -/
def lockedVersions : World :=
  worldWith [(.ofText "e" isName_e, .file 0o644 (.plain [0x31]))] 0o555
    [(.ofText "1" (by decide), .directory 0o755
       [(.ofText "e" isName_e, .file 0o200 (.plain [0x33]))]),
     (.ofText "1.zip" (by decide), .file 0o644 .empty)]

/-- The file to upload. -/
def foundFile : Found :=
  ⟨[.ofText "e" isName_e], .ofString "src/e"⟩

/-- An upload that succeeds may leave the bundle, and a file that cannot be fetched. -/
theorem not_discarded_lockedVersions :
    (model.check = .ok () ∧
      lockedVersions.perform (collect src).run = (.ok [.ofFound foundFile], lockedVersions) ∧
      lockedVersions.perform (uploadDir (.folder storeFolder) model src).run
        = (.ok (), afterUpload lockedVersions) ∧
      Ready (.folder storeFolder) model [.ofFound foundFile] lockedVersions
        (afterUpload lockedVersions)) ∧
    (BundleAt (.folder storeFolder) model lockedVersions (.file bundlePlace) ∧
      (afterUpload lockedVersions).content? (.file bundlePlace) ≠ none) ∧
    ∀ c, ((afterUpload lockedVersions).perform
      (getFile (.folder storeFolder) model (SourceFile.ofFound foundFile).key).run).1 ≠ .ok c := by
  have hready : Ready (.folder storeFolder) model [.ofFound foundFile] lockedVersions
      (afterUpload lockedVersions) :=
    ready_of_openFile (d := treePlace) (b := bundlePlace) (by decide +kernel) (by decide +kernel)
      (by decide +kernel) (by decide +kernel)
  have hbundle : lockedVersions.volume.Names (storeFolder.pathOf model.bundleKey) bundlePlace := by
    decide +kernel
  have hthere : ((afterUpload lockedVersions).content? (.file bundlePlace)).isSome = true := by
    decide +kernel
  have hfetch : ((afterUpload lockedVersions).perform
      (getFile (.folder storeFolder) model (SourceFile.ofFound foundFile).key).run).1.isOk
      = false := by
    decide +kernel
  refine ⟨⟨by decide, collect_eq_ok.mpr ⟨⟨[foundFile], by decide +kernel, rfl⟩, rfl⟩,
    perform_uploadDir_model (by decide +kernel), hready⟩,
    ⟨hbundle, Option.isSome_iff_ne_none.mp hthere⟩, fun c hc => ?_⟩
  rw [hc] at hfetch
  exact absurd hfetch (by simp [Except.isOk, Except.toBool])

end Storage

end Depot
