import Depot.Proofs.Bundle
import Depot.Proofs.Collect
import Depot.Proofs.Storage.RoundTrip

/-!
# Files that share a key

The key of a file is made of names as text, and octets that are not the encoding of a character read
like those of any other such octets. So two files may share a key. They do just if the folder holds
files of different names that read alike, name by name (`Volume.ReadsApart`): no name is mistaken
for two, whatever stands in it, and none for one in another directory.

Files that share a key are stored at one site, the later in place of the earlier, and an upload
counts both. That is so just if names read alike (`stored_apart_iff`), in a folder and in a bucket.
The bundle of such a folder is refused, so that every bundle has a member for each file.

The keys are made by `collect_files`, and `upload_tree` counts the files.
-/

namespace Depot

/-- Keys tell names apart that read differently. -/
theorem Resource.relativeKey_eq_iff {names names' : List Name} (h : names ≠ []) (h' : names' ≠ []) :
    relativeKey names = relativeKey names' ↔ names.map Name.display = names'.map Name.display := by
  constructor
  · intro he
    have hparts := (splitOn_relativeKey h).symm.trans
      ((congrArg (fun key : String => Text.splitOn '/' key.toList) he).trans
        (splitOn_relativeKey h'))
    have hlists : (names.map Name.display).map String.toList
        = (names'.map Name.display).map String.toList := by
      rw [List.map_map, List.map_map]
      exact hparts
    exact List.map_injective_iff.mpr (fun _ _ => String.toList_inj.mp) hlists
  · exact congrArg ("/".intercalate ·)

/-- No two files that a folder holds have different names that read alike, name by name. -/
def Volume.ReadsApart (v : Volume) (dir : Path) : Prop :=
  ∀ names names', v.Holds dir names → v.Holds dir names' →
    names.map Name.display = names'.map Name.display → names = names'

variable {w w' : World} {source dest : Path} {files : List SourceFile}

/-- Files have keys of their own just if their names read apart. -/
theorem nodup_keys_iff (hordered : w.volume.Ordered) (hdir : w.volume.stat source = .ok .directory)
    (hfiles : w.perform (collect source).run = (.ok files, w')) :
    (files.map SourceFile.key).Nodup ↔ w.volume.ReadsApart source := by
  obtain ⟨-, -, rels, rfl, hsorted, hholds⟩ := exists_names_of_survey hordered hdir hfiles
  rw [List.map_map, List.nodup_map_iff_inj_on (nodup_of_pairwise hsorted)]
  simp only [hholds]
  constructor
  · intro h names names' hn hn' halike
    exact h names hn names' hn'
      ((Resource.relativeKey_eq_iff (hn.ne_nil hdir) (hn'.ne_nil hdir)).mpr halike)
  · intro h names hn names' hn' hkey
    exact h names names' hn hn'
      ((Resource.relativeKey_eq_iff (hn.ne_nil hdir) (hn'.ne_nil hdir)).mp hkey)

/-- The members of a bundle are named by the keys of the files, which are all different. -/
theorem nodup_keys_of_make {n : Nat} (hfiles : w.perform (collect source).run = (.ok files, w))
    (h : w.perform (Bundle.make source dest).run = (.ok n, w')) :
    n = files.length ∧ (files.map SourceFile.key).Nodup := by
  have hcourse := Bundle.perform_make source dest w
  rw [h] at hcourse
  cases hcourse with
  | made hfiles' hwrite _ =>
    obtain rfl := Except.ok.inj (Prod.mk.inj (hfiles.symm.trans hfiles')).1
    obtain ⟨p, v₁, ms, v₂, -, hpacks, hnodup, -⟩ := Bundle.writeArchive_eq_ok hwrite
    exact ⟨rfl, Bundle.names_of_packs hpacks ▸ hnodup⟩

namespace Storage

variable {s : Storage} {r : Resource} {sites : List Site}

/-- A file of an upload from one world to another is stored at a site, to which its key leads, with
the content that it had. -/
def StoredAt (s : Storage) (r : Resource) (w w' : World) (file : SourceFile) (site : Site) : Prop :=
  s.KeyAt w' (r.stem ++ "/" ++ file.key) site ∧
    ∃ c, w.volume.readFile file.path = .ok c ∧ w'.content? site = some c

theorem KeyAt.inj {key : String} {site site' : Site} (h : s.KeyAt w key site)
    (h' : s.KeyAt w key site') : site = site' := by
  cases s with
  | folder f =>
    cases site with
    | object store p => exact h.elim
    | file p =>
      cases site' with
      | object store p => exact h'.elim
      | file q => exact congrArg Site.file (Volume.Leads.inj h h')
  | bucket b =>
    cases site with
    | file p => exact h.elim
    | object store p =>
      cases site' with
      | file p => exact h'.elim
      | object store' q =>
        obtain ⟨rfl, rfl⟩ := h
        obtain ⟨rfl, rfl⟩ := h'
        rfl

/-- Files at sites of their own have keys of their own. -/
theorem nodup_keys_of_sites {site : SourceFile → Site}
    (hstored : ∀ file ∈ files, s.StoredAt r w w' file (site file))
    (hsites : (files.map site).Nodup) : (files.map SourceFile.key).Nodup := by
  refine List.Nodup.map_on ?_ (List.Nodup.of_map _ hsites)
  intro x hx y hy hkey
  have hat := (hstored x hx).1
  rw [hkey] at hat
  exact List.inj_on_of_nodup_map hsites hx hy (hat.inj (hstored y hy).1)

theorem check_of_uploadDir (hup : w.perform (s.uploadDir r source).run = (.ok (), w')) :
    r.check = .ok () := by
  cases s with
  | folder f | bucket b =>
    obtain ⟨⟨⟩, w₁, hcheck, -⟩ := World.perform_bind_eq_ok.mp hup
    exact mapError_eq_ok.mp (World.perform_check_eq_ok.mp hcheck).1

theorem exists_sites_folder {f : Folder}
    (hfiles : w.perform (collect source).run = (.ok files, w))
    (hkeys : (files.map SourceFile.key).Nodup)
    (hup : w.perform ((Storage.folder f).uploadDir r source).run = (.ok (), w'))
    (hready : Ready (.folder f) r files w w') :
    ∃ site : SourceFile → Site, (∀ file ∈ files, StoredAt (.folder f) r w w' file (site file)) ∧
      (files.map site).Nodup := by
  have hr := check_of_uploadDir hup
  obtain ⟨d, hd⟩ := Folder.exists_tree hr hup
  obtain ⟨hplain, hout⟩ := hready d hd
  obtain ⟨ds, rfl, -, -, hdeposits⟩ :=
    Folder.exists_deposits hr hfiles hkeys hup hd hplain hout
  have hsite : ∀ file, ∃ site, file ∈ ds.map Folder.Deposit.file →
      StoredAt (.folder f) r w w' file site ∧
        ∃ e ∈ ds, e.file = file ∧ site = .file e.place := by
    intro file
    by_cases hf : file ∈ ds.map Folder.Deposit.file
    · obtain ⟨e, he, rfl⟩ := List.mem_map.mp hf
      obtain ⟨-, hleads, hread, mode, hface, -⟩ := hdeposits e he
      exact ⟨.file e.place, fun _ => ⟨⟨hleads, e.content, hread,
        World.content?_file_eq_some.mpr ⟨mode, hface⟩⟩, e, he, rfl, rfl⟩⟩
    · exact ⟨.file d, fun hf' => absurd hf' hf⟩
  choose site hsite using hsite
  refine ⟨site, fun file hf => (hsite file hf).1,
    List.Nodup.map_on ?_ (List.Nodup.of_map _ hkeys)⟩
  -- places in the tree tell keys apart
  intro x hx y hy hxy
  obtain ⟨-, e, he, rfl, hplace⟩ := hsite x hx
  obtain ⟨-, e', he', rfl, hplace'⟩ := hsite y hy
  have hplaces := Site.file.inj (hplace.symm.trans (hxy.trans hplace'))
  exact List.inj_on_of_nodup_map hkeys hx hy
    ((hdeposits e he).within.key_eq (hdeposits e' he').within hplaces)

theorem exists_sites_bucket {b : Bucket} (hdir : w.volume.stat source = .ok .directory)
    (hfiles : w.perform (collect source).run = (.ok files, w))
    (hkeys : (files.map SourceFile.key).Nodup)
    (hup : w.perform ((Storage.bucket b).uploadDir r source).run = (.ok (), w')) :
    ∃ site : SourceFile → Site, (∀ file ∈ files, StoredAt (.bucket b) r w w' file (site file)) ∧
      (files.map site).Nodup := by
  obtain ⟨name, hb, -, huploads⟩ :=
    Bucket.uploads_of_uploadDir (check_of_uploadDir hup) hfiles hup
  have hobjects := nodup_objects r (exists_names_of_collect hdir hfiles) hkeys
  refine ⟨fun file => .object (.named name) (.ofKey (r.stem ++ "/" ++ file.key)), ?_, ?_⟩
  · intro file hf
    obtain ⟨c, hread, hfind⟩ := Bucket.found_of_uploads hb huploads hobjects file hf
    exact ⟨⟨hb, rfl⟩, c, hread, hfind⟩
  · have hsites := List.Nodup.map
      (fun (p q : ObjectPath) (he : Site.object (.named name) p = .object (.named name) q) =>
        (Site.object.inj he).2) hobjects
    rwa [List.map_map] at hsites

/-- Files with keys of their own are stored at sites of their own. -/
theorem exists_sites (hdir : w.volume.stat source = .ok .directory)
    (hfiles : w.perform (collect source).run = (.ok files, w))
    (hkeys : (files.map SourceFile.key).Nodup)
    (hup : w.perform (s.uploadDir r source).run = (.ok (), w'))
    (hready : s.Ready r files w w') :
    ∃ site : SourceFile → Site, (∀ file ∈ files, s.StoredAt r w w' file (site file)) ∧
      (files.map site).Nodup := by
  cases s with
  | folder f => exact exists_sites_folder hfiles hkeys hup hready
  | bucket b => exact exists_sites_bucket hdir hfiles hkeys hup

/-- **Files have keys of their own just if no two of them have names that read alike. An upload that
succeeds stores each of them at a site of its own just in that case, and a bundle is made in that
case only, with a member for each.** -/
theorem stored_apart_iff (hordered : w.volume.Ordered)
    (hdir : w.volume.stat source = .ok .directory)
    (hfiles : w.perform (collect source).run = (.ok files, w)) :
    ((files.map SourceFile.key).Nodup ↔ w.volume.ReadsApart source) ∧
      (∀ (s : Storage) (r : Resource) (w' : World),
        w.perform (s.uploadDir r source).run = (.ok (), w') → s.Ready r files w w' →
        ((∃ site : SourceFile → Site, (∀ file ∈ files, s.StoredAt r w w' file (site file)) ∧
          (files.map site).Nodup) ↔ w.volume.ReadsApart source)) ∧
      ∀ (dest : Path) (n : Nat) (w' : World),
        w.perform (Bundle.make source dest).run = (.ok n, w') →
        n = files.length ∧ w.volume.ReadsApart source := by
  have hkeys := nodup_keys_iff hordered hdir hfiles
  refine ⟨hkeys, fun s r w' hup hready => ?_, fun dest n w' hmake => ?_⟩
  · rw [← hkeys]
    constructor
    · rintro ⟨site, hstored, hsites⟩
      exact nodup_keys_of_sites hstored hsites
    · exact fun h => exists_sites hdir hfiles h hup hready
  · rw [← hkeys]
    exact nodup_keys_of_make hfiles hmake

theorem stored_apart_iff_linkedSource :
    linkedSource.volume.Ordered ∧ linkedSource.volume.stat src = .ok .directory ∧
      linkedSource.perform (collect src).run = (.ok (foundFiles.map .ofFound), linkedSource) ∧
      linkedSource.perform (uploadDir (.folder storeFolder) model src).run
        = (.ok (), afterUpload linkedSource) ∧
      Ready (.folder storeFolder) model (foundFiles.map .ofFound) linkedSource
        (afterUpload linkedSource) ∧
      linkedSource.volume.ReadsApart src ∧
      ∃ site : SourceFile → Site,
        (∀ file ∈ foundFiles.map SourceFile.ofFound,
          StoredAt (.folder storeFolder) model linkedSource (afterUpload linkedSource) file
            (site file)) ∧
        ((foundFiles.map SourceFile.ofFound).map site).Nodup := by
  have hordered : linkedSource.volume.Ordered := by decide +kernel
  have hdir : linkedSource.volume.stat src = .ok .directory := by decide +kernel
  have hfiles : linkedSource.perform (collect src).run
      = (.ok (foundFiles.map .ofFound), linkedSource) :=
    collect_eq_ok.mpr ⟨⟨foundFiles, by decide +kernel, rfl⟩, rfl⟩
  have hup : linkedSource.perform (uploadDir (.folder storeFolder) model src).run
      = (.ok (), afterUpload linkedSource) := perform_uploadDir_model (by decide +kernel)
  have hready : Ready (.folder storeFolder) model (foundFiles.map .ofFound) linkedSource
      (afterUpload linkedSource) :=
    ready_of_openFile (d := treePlace) (b := bundlePlace) (by decide +kernel) (by decide +kernel)
      (by decide +kernel) (by decide +kernel)
  obtain ⟨hkeys, hsites, -⟩ := stored_apart_iff hordered hdir hfiles
  have hapart : linkedSource.volume.ReadsApart src := hkeys.mp (by decide +kernel)
  exact ⟨hordered, hdir, hfiles, hup, hready, hapart,
    (hsites (.folder storeFolder) model _ hup hready).mpr hapart⟩

/-- The names of the files to upload are no text. -/
def unprintableNames : World :=
  worldWith
    [(⟨[0xFE], by decide⟩, .file 0o644 (.plain [0x31])),
     (⟨[0xFF], by decide⟩, .file 0o644 (.plain [0x32]))]
    0o755 [(.ofText model.treeEntry model.isName_treeEntry, .directory 0o755 [])]

/-- The files to upload. -/
def unprintableFiles : List Found :=
  [⟨[⟨[0xFE], by decide⟩], ⟨src.bytes ++ [slash, 0xFE]⟩⟩,
   ⟨[⟨[0xFF], by decide⟩], ⟨src.bytes ++ [slash, 0xFF]⟩⟩]

/-- An upload that succeeds may store one file in place of another, and the bundle is refused. -/
theorem not_stored_apart_unprintableNames :
    (unprintableNames.volume.Ordered ∧ unprintableNames.volume.stat src = .ok .directory ∧
      unprintableNames.perform (collect src).run
        = (.ok (unprintableFiles.map .ofFound), unprintableNames)) ∧
    ¬ ((unprintableFiles.map SourceFile.ofFound).map SourceFile.key).Nodup ∧
    (unprintableNames.perform (uploadDir (.folder storeFolder) model src).run
        = (.ok (), afterUpload unprintableNames) ∧
      Ready (.folder storeFolder) model (unprintableFiles.map .ofFound) unprintableNames
        (afterUpload unprintableNames) ∧
      ¬ ∃ site : SourceFile → Site,
        (∀ file ∈ unprintableFiles.map SourceFile.ofFound,
          StoredAt (.folder storeFolder) model unprintableNames (afterUpload unprintableNames) file
            (site file)) ∧
        ((unprintableFiles.map SourceFile.ofFound).map site).Nodup) ∧
    ∀ n, (unprintableNames.perform (Bundle.make src (.ofString "src.zip")).run).1 ≠ .ok n := by
  have hkeys : ¬ ((unprintableFiles.map SourceFile.ofFound).map SourceFile.key).Nodup := by
    decide +kernel
  have hready : Ready (.folder storeFolder) model (unprintableFiles.map .ofFound) unprintableNames
      (afterUpload unprintableNames) :=
    ready_of_openFile (d := treePlace) (b := bundlePlace) (by decide +kernel) (by decide +kernel)
      (by decide +kernel) (by decide +kernel)
  have hrefused : (unprintableNames.perform (Bundle.make src (.ofString "src.zip")).run).1.isOk
      = false := by
    decide +kernel
  refine ⟨⟨by decide +kernel, by decide +kernel,
    collect_eq_ok.mpr ⟨⟨unprintableFiles, by decide +kernel, rfl⟩, rfl⟩⟩, hkeys,
    ⟨perform_uploadDir_model (by decide +kernel), hready, ?_⟩, fun n hn => ?_⟩
  · rintro ⟨site, hstored, hsites⟩
    exact hkeys (nodup_keys_of_sites hstored hsites)
  · rw [hn] at hrefused
    exact absurd hrefused (by simp [Except.isOk, Except.toBool])

end Storage

end Depot
