import Depot.Proofs.Folder.Failure
import Depot.Proofs.Storage.RoundTrip

/-!
# Uploads of what is stored already

A folder makes or empties a file before it reads the source. Where both are the same file, nothing
is left to be read (`Volume.empties_of_calls`), and the upload succeeds with an empty file:

* `Volume.Empties K U`: the files at the places in `K` are empty afterwards, those at the places in
  `U` may hold anything, and elsewhere nothing changes but for directories that are new.
* An upload of a tree as the resource that it belongs to empties every file that its key leads back
  to (`Folder.empties_of_uploadDir`), and an upload of the bundle as that bundle empties it
  (`Folder.empties_of_uploadZip`).
* A key leads back to its file if the names are texts (`spelled_of_walk`). A file with another name
  is stored under the text that is shown for the name, which is another file.

`Storage.kept_iff_of_reupload`: **such an upload keeps the files of the tree, or the bundle, just if
they were empty before.**

These are `upload_dir` from the tree of the resource and `upload_zip` from what `download` gave. Out
of scope: uploads that fail (`Depot.Proofs.Storage.Atomicity`).
-/

namespace Depot

open Text Volume

namespace Volume

variable {v v₁ v' : Volume} {path : Path} {p q : Place} {c : Content} {mode : Mode}
  {K K' U U' : Place → Prop}

/-! ## Files that are emptied -/

/-- The files at the places in `K` are empty afterwards, unless they are in `U`; what is elsewhere
stays, and nothing is new there but directories. -/
structure Empties (K U : Place → Prop) (v v' : Volume) : Prop
    extends Spares (fun q => K q ∨ U q) v v' where
  emptied : ∀ q, K q → ¬ U q → ∃ mode, v'.face? q = some (.file mode .empty)
  stays : ∀ q fc, v.face? q = some fc → ∃ fc', v'.face? q = some fc'

theorem Adds.empties (h : Adds v v') : Empties (fun _ => False) (fun _ => False) v v' :=
  ⟨h.mono fun _ => False.elim, fun _ => False.elim, fun q fc hfc => ⟨fc, h.kept q id fc hfc⟩⟩

theorem Writes.stays (h : Writes v path p c v') (q : Place) (fc : Face)
    (hfc : v.face? q = some fc) : ∃ fc', v'.face? q = some fc' := by
  by_cases hq : q = p
  · obtain ⟨mode, hface⟩ := h.holds
    exact ⟨_, hq ▸ hface⟩
  · exact ⟨fc, h.kept q hq fc hfc⟩

theorem Writes.empties (h : Writes v path p .empty v') : Empties (· = p) (fun _ => False) v v' :=
  ⟨h.toSpares.mono fun _ => .inl, fun _ he _ => he ▸ h.holds, h.stays⟩

theorem Writes.fills (h : Writes v path p c v') : Empties (fun _ => False) (· = p) v v' :=
  ⟨h.toSpares.mono fun _ => .inr, fun _ => False.elim, h.stays⟩

namespace Empties

theorem mono (h : Empties K U v v') (hK : ∀ q, K q ↔ K' q) (hU : ∀ q, U q → U' q) :
    Empties K' U' v v' :=
  ⟨h.toSpares.mono fun q => Or.imp (hK q).mp (hU q),
    fun q hk hu => h.emptied q ((hK q).mpr hk) fun hu' => hu (hU q hu'), h.stays⟩

theorem trans (h : Empties K U v v₁) (h' : Empties K' U' v₁ v') :
    Empties (fun q => K q ∨ K' q) (fun q => U q ∨ U' q) v v' := by
  refine ⟨(h.toSpares.mono fun _ => Or.imp .inl .inl).trans
    (h'.toSpares.mono fun _ => Or.imp .inr .inr), fun q hk hu => ?_, fun q fc hfc => ?_⟩
  · rw [not_or] at hu
    by_cases hk' : K' q
    · exact h'.emptied q hk' hu.2
    · obtain ⟨mode, hface⟩ := h.emptied q (hk.resolve_right hk') hu.1
      exact ⟨mode, h'.kept q (not_or.mpr ⟨hk', hu.2⟩) _ hface⟩
  · obtain ⟨fc₁, hfc₁⟩ := h.stays q fc hfc
    exact h'.stays q fc₁ hfc₁

theorem leads (h : Empties K U v v') (hl : v.Leads path q) : v'.Leads path q := by
  obtain ⟨fc, hfc⟩ := hl.exists_face
  obtain ⟨fc', hfc'⟩ := h.stays q fc hfc
  exact hl.steady h.toSteady hfc'

end Empties

/-! ## One file -/

/-- A path that leads somewhere is opened there for writing. -/
theorem place_of_createWith (hl : v.Leads path p) (h : v.createWith mode path = .ok (q, v')) :
    q = p := by
  obtain ⟨s, hs, rfl, -⟩ := createWith_eq_ok h
  obtain ⟨node, hn⟩ := hl
  obtain ⟨s', hs', hp, -⟩ := existing_eq_ok.mp hn
  obtain rfl := Except.ok.inj ((find_follow_of_create hs).symm.trans hs')
  exact hp

theorem Writes.read (h : Writes v path p c v') : v'.readAt p = .ok c :=
  readAt_eq_ok.mpr h.holds

theorem writeAt_empty (v : Volume) (p : Place) : v.writeAt p .empty = (.ok (), v) := rfl

/-- Nothing is read of a file once it has been opened for writing, and nothing is written back. -/
theorem empties_of_calls (hl : v.Leads path p) (hcreate : v.createWith mode path = .ok (q, v₁))
    (hread : v₁.readAt p = .ok c) (hwrite : v₁.writeAt q c = (.ok (), v')) :
    Empties (· = p) (fun _ => False) v v' := by
  obtain rfl := place_of_createWith hl hcreate
  obtain hwrites | ⟨⟨given, hfaulty⟩, rfl⟩ := writes_of_createWith hcreate
  · obtain rfl := Except.ok.inj (hwrites.read.symm.trans hread)
    obtain rfl := (Prod.mk.inj ((writeAt_empty v₁ q).symm.trans hwrite)).2
    exact hwrites.empties
  · obtain ⟨mode, hface⟩ := readAt_eq_ok.mp hread
    exact absurd (hfaulty.symm.trans hface) (by simp)

/-- What is opened for writing and written may change only there. -/
theorem fills_of_calls (hcreate : v.createWith mode path = .ok (p, v₁))
    (hwrite : v₁.writeAt p c = (.ok (), v')) :
    Empties (fun _ => False) (fun q => v'.Leads path q) v v' := by
  obtain rfl : (v₁.writeAt p c).2 = v' := congrArg Prod.snd hwrite
  obtain hwrites | ⟨⟨given, hfaulty⟩, rfl⟩ := writes_of_createWith hcreate
  · have hwrites₂ := hwrites.write c
    exact hwrites₂.fills.mono (fun _ => .rfl) fun q he => he ▸ hwrites₂.leads
  · rw [writeAt_faulty hfaulty]
    exact (Adds.empties (.refl _ _)).mono (fun _ => .rfl) fun _ => False.elim

/-- A file that is copied onto itself is emptied. -/
theorem empties_of_copyFile (h : v.copyFile path path = (.ok (), v')) :
    ∃ p, v.Leads path p ∧ Empties (· = p) (fun _ => False) v v' := by
  unfold copyFile at h
  split at h
  · exact absurd (Prod.mk.inj h).1 (by simp)
  next p hopen =>
  have hleads := leads_of_openFile hopen
  dsimp only at h
  split at h
  · exact absurd (Prod.mk.inj h).1 (by simp)
  next q v₁ hcreate =>
  obtain rfl := place_of_createWith hleads hcreate
  obtain hwrites | ⟨⟨given, hfaulty⟩, rfl⟩ := writes_of_createWith hcreate
  · obtain ⟨v₂, hmode, hwrites₂⟩ := hwrites.setMode (v.modeAt q)
    have hcopied : v₂.copyAt q q = (.ok (), v₂) :=
      copyAt_eq_ok.mpr ⟨.empty, hwrites₂.read, writeAt_empty v₂ q⟩
    rw [hmode] at h
    dsimp only at h
    rw [hcopied] at h
    obtain rfl := (Prod.mk.inj h).2
    exact ⟨q, hleads, hwrites₂.empties⟩
  · rw [setModeAt, node?_of_faulty hfaulty] at h
    exact absurd (Prod.mk.inj h).1 (by simp)

end Volume

/-! ## Files of a tree -/

/-- The key of a file spells the path by which it is found. -/
def SourceFile.Spelled (root : Path) (file : SourceFile) : Prop :=
  file.path = root.join (.ofString file.key)

/-- A file with names that are texts is found by the path that its key spells. -/
theorem spelled_of_walk {v : Volume} {root : Path} {found : List Found}
    (hdir : v.stat root = .ok .directory) (hwalk : v.walk root = .ok found) {fd : Found}
    (hfd : fd ∈ found) (htext : ∀ n ∈ fd.names, n.shown = n) :
    (SourceFile.ofFound fd).Spelled root := by
  obtain ⟨p, node, hex, hnode⟩ := exists_of_stat hdir
  have hne := names_ne_nil_of_walk hnode hex hwalk fd hfd
  obtain ⟨more, hnames, hpath⟩ := behind_of_walk hwalk fd hfd
  obtain rfl : fd.names = more := hnames
  exact hpath.trans (Resource.children_eq_join root hne htext)

namespace Folder

variable {f : Folder} {r : Resource} {w w' : World} {root : Path} {key : String} {p : Place}

/-- A file that is put where it is read is emptied. -/
theorem empties_of_putFile (hopen : w.volume.openFile (root.join (.ofString key)) = .ok p)
    (h : w.perform (putFile root key p).run = (.ok (), w')) :
    Empties (· = p) (fun _ => False) w.volume w'.volume := by
  obtain ⟨v₁, v₂, q, c, hdirs, hcreate, hread, v₃, hwrite, rfl⟩ := calls_of_putFile h
  have hleads := hdirs.leads (leads_of_openFile hopen) id
  have hempties := hdirs.empties.trans (empties_of_calls hleads hcreate hread hwrite)
  exact hempties.mono (by simp) (by simp)

/-- A file that is put changes only where its key leads. -/
theorem fills_of_putFile {source : Handle}
    (h : w.perform (putFile root key source).run = (.ok (), w')) :
    Empties (fun _ => False) (fun q => w'.volume.Leads (root.join (.ofString key)) q)
      w.volume w'.volume := by
  obtain ⟨v₁, v₂, q, c, hdirs, hcreate, -, v₃, hwrite, rfl⟩ := calls_of_putFile h
  exact (hdirs.empties.trans (fills_of_calls hcreate hwrite)).mono (by simp) (by simp)

/-- Files that are handed over to where they are read are emptied, and the others change only where
their keys lead. -/
theorem empties_of_handOver {files : List SourceFile}
    (h : w.perform (handOver (putFile root) files).run = (.ok (), w')) :
    Empties (fun q => ∃ file ∈ files, file.Spelled root ∧
        w'.volume.Leads (root.join (.ofString file.key)) q)
      (fun q => ∃ file ∈ files, ¬ file.Spelled root ∧
        w'.volume.Leads (root.join (.ofString file.key)) q) w.volume w'.volume := by
  induction files generalizing w with
  | nil =>
    obtain rfl : w = w' := (Prod.mk.inj h).2
    exact (Adds.empties (.refl _ _)).mono (by simp) (by simp)
  | cons file rest ih =>
    rw [World.perform_handOver_cons] at h
    cases hopen : w.volume.openFile file.path with
    | error k => rw [hopen] at h; exact absurd (Prod.mk.inj h).1 (by simp)
    | ok p =>
      rw [hopen] at h
      dsimp only at h
      rcases hput : w.perform (putFile root file.key p).run with ⟨e | u, w₁⟩ <;> rw [hput] at h
      · exact absurd (Prod.mk.inj h).1 (by simp)
      have hothers := ih h
      simp only [List.mem_cons, exists_eq_or_imp]
      by_cases hspelled : file.Spelled root
      · rw [hspelled] at hopen
        have hfirst := empties_of_putFile hopen hput
        have hleads := hothers.leads (hfirst.leads (leads_of_openFile hopen))
        refine (hfirst.trans hothers).mono (fun q => or_congr_left ?_) fun q => ?_
        · exact ⟨fun he => ⟨hspelled, he ▸ hleads⟩, fun hq => hq.2.inj hleads⟩
        · exact Or.imp_left False.elim
      · refine ((fills_of_putFile hput).trans hothers).mono (fun q => ?_) fun q => ?_
        · exact or_congr_left (iff_of_false id fun hq => hspelled hq.1)
        · exact Or.imp_left fun hq => ⟨hspelled, hothers.leads hq⟩

/-- The key of a file of an upload spells the path by which it is found. -/
abbrev Spells (f : Folder) (r : Resource) (file : SourceFile) : Prop :=
  file.Spelled (f.pathOf r.stem)

/-- A tree that is uploaded from where it is stored is emptied. -/
theorem empties_of_uploadDir (hr : r.check = .ok ()) {source : Path}
    (h : w.perform (f.uploadDir r source).run = (.ok (), w')) :
    Empties (fun q => ∃ file ∈ (w.volume.without (f.pathOf r.bundleKey)).filesIn source,
        f.Spells r file ∧ w'.volume.Leads (f.pathOf (r.stem ++ "/" ++ file.key)) q)
      (fun q => ∃ file ∈ (w.volume.without (f.pathOf r.bundleKey)).filesIn source,
        ¬ f.Spells r file ∧ w'.volume.Leads (f.pathOf (r.stem ++ "/" ++ file.key)) q)
      (w.volume.without (f.pathOf r.bundleKey)) w'.volume := by
  rw [uploadDir, World.perform_bind_of_ok (World.perform_checkResource hr w),
    World.perform_bind_of_ok (perform_discardBundle w), uploadEach_eq] at h
  generalize hw : { w with volume := w.volume.without (f.pathOf r.bundleKey) } = w₁ at h
  have hvolume : w.volume.without (f.pathOf r.bundleKey) = w₁.volume := by rw [← hw]
  rw [hvolume]
  obtain ⟨-, hsources⟩ | ⟨-, e, hsources⟩ := w₁.perform_sourceFiles source
  · rw [World.perform_bind_of_ok hsources] at h
    have hpath : ∀ file ∈ w₁.volume.filesIn source, f.pathOf (r.stem ++ "/" ++ file.key)
        = (f.pathOf r.stem).join (.ofString file.key) := by
      intro file hf
      obtain ⟨names, -, hkey⟩ := exists_names_of_mem_filesIn hf
      rw [hkey, pathOf_fileKey]
    refine (empties_of_handOver h).mono (fun q => ?_) fun q => ?_
    · exact exists_congr fun file => and_congr_right fun hf => by rw [hpath file hf]
    · rintro ⟨file, hf, hno, hl⟩
      exact ⟨file, hf, hno, by rwa [hpath file hf]⟩
  · rw [World.perform_bind_action, hsources] at h
    exact absurd (Prod.mk.inj h).1 (by simp)

/-- A bundle that is uploaded from where it is stored is emptied. -/
theorem empties_of_uploadZip (hr : r.check = .ok ())
    (h : w.perform (f.uploadZip r (f.pathOf r.bundleKey)).run = (.ok (), w')) :
    ∃ p, w'.volume.Leads (f.pathOf r.bundleKey) p ∧
      Empties (· = p) (fun _ => False) w.volume w'.volume := by
  rw [uploadZip, World.perform_bind_of_ok (World.perform_checkResource hr w)] at h
  obtain ⟨⟨⟩, w₁, hcheck, h⟩ := World.perform_bind_eq_ok.mp h
  obtain rfl : w = w₁ := by
    have hsame : w = (w.perform (checkBundleFile (f.pathOf r.bundleKey)).run).2 :=
      checkBundleFile_moves (R := Eq) w
    rwa [hcheck] at hsame
  obtain ⟨⟨⟩, w₁, hparent, h⟩ := World.perform_bind_eq_ok.mp h
  obtain ⟨v, hdirs, rfl⟩ := adds_makeParent hparent
  have hcall := World.perform_ofReply_eq_ok.mp h
  rw [World.perform_ofCall, World.answer] at hcall
  obtain ⟨v', hcopy, rfl⟩ := World.left_eq_ok.mp hcall
  obtain ⟨p, hp, hempties⟩ := empties_of_copyFile hcopy
  exact ⟨p, hempties.leads hp, (hdirs.empties.trans hempties).mono (by simp) (by simp)⟩

/-- Every link that a folder gives is to the bundle. -/
theorem link_of_download {link : Link} (h : (w.perform (f.download r).run).1 = .ok link) :
    link = .file (f.pathOf r.bundleKey) := by
  have hany : ∀ {α : Type} {x : Action α}, x.Confined (fun _ => True) fun _ => True :=
    fun _ => ⟨fun _ _ => trivial, fun _ _ => trivial⟩
  have hlink : (f.download r).Confined (fun _ => True) (· = .file (f.pathOf r.bundleKey)) := by
    refine .bind hany fun _ _ => .bind hany fun found _ => ?_
    split
    · exact .pure rfl
    · exact .bind hany fun _ _ => .bind hany fun _ _ => .pure rfl
  exact (hlink w).2 link h

end Folder

/-! ## What is kept -/

namespace Storage

variable {f : Folder} {r : Resource} {w w' w₁ w₂ : World} {sites : Site → Prop}

/-- What is stored at some sites is as it was. -/
def Kept (sites : Site → Prop) (w w' : World) : Prop :=
  ∀ site, sites site → w'.content? site = w.content? site

/-- At some sites there are empty files. -/
def Blank (sites : Site → Prop) (w : World) : Prop :=
  ∀ site, sites site → w.content? site = some .empty

/-- What is emptied is kept just if it was empty. -/
theorem kept_iff_blank (h : Blank sites w') : Kept sites w w' ↔ Blank sites w :=
  forall₂_congr fun site hs => by rw [h site hs, eq_comm]

/-- The sites of the files that an upload of files finds where it stores them, once the bundle is
discarded. A file with a name that is no text is stored under another name, and so its site, and
one at which it is stored, are left out. -/
def OwnAt (f : Folder) (r : Resource) (source : Path) (w w' : World) (site : Site) : Prop :=
  (∃ file ∈ (w.volume.without (f.pathOf r.bundleKey)).filesIn source,
    f.Spells r file ∧ KeyAt (.folder f) w' (r.stem ++ "/" ++ file.key) site) ∧
  ¬ ∃ file ∈ (w.volume.without (f.pathOf r.bundleKey)).filesIn source,
    ¬ f.Spells r file ∧ KeyAt (.folder f) w' (r.stem ++ "/" ++ file.key) site

theorem blank_of_uploadDir (hr : r.check = .ok ()) {source : Path}
    (h : w.perform (uploadDir (.folder f) r source).run = (.ok (), w')) :
    Blank (OwnAt f r source w w') w' := by
  rintro site ⟨hsite, hno⟩
  cases site with
  | object store p =>
    obtain ⟨file, -, -, hsite⟩ := hsite
    exact absurd hsite id
  | file p =>
    exact World.content?_file_eq_some.mpr
      ((Folder.empties_of_uploadDir hr h).emptied p hsite hno)

theorem blank_of_uploadZip (hr : r.check = .ok ())
    (h : w.perform (uploadZip (.folder f) r (f.pathOf r.bundleKey)).run = (.ok (), w')) :
    Blank (KeyAt (.folder f) w' r.bundleKey) w' := by
  intro site hsite
  cases site with
  | object store p => exact absurd hsite id
  | file p =>
    obtain ⟨q, hq, hempties⟩ := Folder.empties_of_uploadZip hr h
    exact World.content?_file_eq_some.mpr (hempties.emptied p (Volume.Leads.inj hsite hq) id)

/-- **An upload of the tree of a resource as that resource keeps the files of the tree just if they
were empty before, and an upload of the bundle that a link is to keeps it just if it was.** -/
theorem kept_iff_of_reupload (hr : r.check = .ok ()) :
    (w.perform (uploadDir (.folder f) r (f.pathOf r.stem)).run = (.ok (), w') →
      (Kept (OwnAt f r (f.pathOf r.stem) w w') w w' ↔
        Blank (OwnAt f r (f.pathOf r.stem) w w') w)) ∧
    ∀ path, w.perform (download (.folder f) r).run = (.ok (.file path), w₁) →
      w₁.perform (uploadZip (.folder f) r path).run = (.ok (), w₂) →
      (Kept (KeyAt (.folder f) w₂ r.bundleKey) w₁ w₂ ↔
        Blank (KeyAt (.folder f) w₂ r.bundleKey) w₁) := by
  refine ⟨fun h => kept_iff_blank (blank_of_uploadDir hr h), fun path hlink h => ?_⟩
  obtain rfl := Link.file.inj (Folder.link_of_download (congrArg Prod.fst hlink))
  exact kept_iff_blank (blank_of_uploadZip hr h)

/-! ## An upload of a tree and a bundle that are stored -/

/-- The world after an upload of the tree from where it is stored. -/
def reuploadedTree (w : World) : World :=
  (w.perform (storeFolder.uploadDir model (storeFolder.pathOf model.stem)).run).2

/-- The world after a download of the bundle. -/
def afterDownload (w : World) : World :=
  (w.perform (storeFolder.download model).run).2

/-- The world after a download of the bundle and an upload from where it is stored. -/
def reuploadedBundle (w : World) : World :=
  ((afterDownload w).perform
    (storeFolder.uploadZip model (storeFolder.pathOf model.bundleKey)).run).2

theorem perform_download_afterDownload {w : World} {link : Link}
    (h : (w.perform (storeFolder.download model).run).1 = .ok link) :
    w.perform (download (.folder storeFolder) model).run = (.ok link, afterDownload w) :=
  Prod.ext h rfl

theorem perform_uploadDir_reuploadedTree {w : World}
    (h : (w.perform (storeFolder.uploadDir model (storeFolder.pathOf model.stem)).run).1 = .ok ()) :
    w.perform (uploadDir (.folder storeFolder) model (storeFolder.pathOf model.stem)).run
      = (.ok (), reuploadedTree w) :=
  Prod.ext h rfl

theorem perform_uploadZip_reuploadedBundle {w : World}
    (h : ((afterDownload w).perform
      (storeFolder.uploadZip model (storeFolder.pathOf model.bundleKey)).run).1 = .ok ()) :
    (afterDownload w).perform
        (uploadZip (.folder storeFolder) model (storeFolder.pathOf model.bundleKey)).run
      = (.ok (), reuploadedBundle w) :=
  Prod.ext h rfl

theorem kept_iff_of_reupload_treeAndBundle :
    model.check = .ok () ∧
      treeAndBundle.perform
          (uploadDir (.folder storeFolder) model (storeFolder.pathOf model.stem)).run
        = (.ok (), reuploadedTree treeAndBundle) ∧
      treeAndBundle.perform (download (.folder storeFolder) model).run
        = (.ok (.file (storeFolder.pathOf model.bundleKey)), afterDownload treeAndBundle) ∧
      (afterDownload treeAndBundle).perform
          (uploadZip (.folder storeFolder) model (storeFolder.pathOf model.bundleKey)).run
        = (.ok (), reuploadedBundle treeAndBundle) ∧
      (Kept (OwnAt storeFolder model (storeFolder.pathOf model.stem) treeAndBundle
          (reuploadedTree treeAndBundle)) treeAndBundle (reuploadedTree treeAndBundle) ↔
        Blank (OwnAt storeFolder model (storeFolder.pathOf model.stem) treeAndBundle
          (reuploadedTree treeAndBundle)) treeAndBundle) ∧
      (Kept (KeyAt (.folder storeFolder) (reuploadedBundle treeAndBundle) model.bundleKey)
          (afterDownload treeAndBundle) (reuploadedBundle treeAndBundle) ↔
        Blank (KeyAt (.folder storeFolder) (reuploadedBundle treeAndBundle) model.bundleKey)
          (afterDownload treeAndBundle)) := by
  have hr : model.check = .ok () := by decide
  have hdir := perform_uploadDir_reuploadedTree (w := treeAndBundle) (by decide +kernel)
  have hfound : (treeAndBundle.perform (storeFolder.download model).run).1
      = .ok (.file (storeFolder.pathOf model.bundleKey)) := by decide +kernel
  have hlink := perform_download_afterDownload hfound
  have hzip := perform_uploadZip_reuploadedBundle (w := treeAndBundle) (by decide +kernel)
  obtain ⟨htree, hbundle⟩ := @kept_iff_of_reupload storeFolder model treeAndBundle
    (reuploadedTree treeAndBundle) (afterDownload treeAndBundle) (reuploadedBundle treeAndBundle) hr
  exact ⟨hr, hdir, hlink, hzip, htree hdir, hbundle _ hlink hzip⟩

/-- An upload of a tree or of a bundle from where it is stored succeeds, and leaves an empty file
where there was something. -/
theorem not_kept_treeAndBundle :
    (model.check = .ok () ∧
      (treeAndBundle.perform
        (uploadDir (.folder storeFolder) model (storeFolder.pathOf model.stem)).run).1 = .ok () ∧
      (treeAndBundle.content? (.file (treePlace ++ [.ofText "e" isName_e]))).map Content.isEmpty
        = some false ∧
      ((reuploadedTree treeAndBundle).content? (.file (treePlace ++ [.ofText "e" isName_e]))).map
        Content.isEmpty = some true) ∧
    ((treeAndBundle.perform (download (.folder storeFolder) model).run).1
        = .ok (.file (storeFolder.pathOf model.bundleKey)) ∧
      ((afterDownload treeAndBundle).perform
        (uploadZip (.folder storeFolder) model (storeFolder.pathOf model.bundleKey)).run).1
        = .ok () ∧
      ((afterDownload treeAndBundle).content? (.file bundlePlace)).map Content.isEmpty
        = some false ∧
      ((reuploadedBundle treeAndBundle).content? (.file bundlePlace)).map Content.isEmpty
        = some true) :=
  ⟨⟨by decide, by decide +kernel, by decide +kernel, by decide +kernel⟩,
    by decide +kernel, by decide +kernel, by decide +kernel, by decide +kernel⟩

end Storage

end Depot
