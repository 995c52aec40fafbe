import Depot.Proofs.Folder.Place
import Depot.Proofs.Folder.Upload
import Mathlib.Data.List.Nodup

/-!
# Files that go into a folder and come back

An upload that succeeds has stored the files that were collected before it (`exists_deposits`):
each is in the tree, at the names that its key is made of, and is fetched by reading the path of its
key (`getFile_eq_ok`). Apart from these files and the bundle everything is as before
(`Plain.spares_of_fills`), and the bundle is gone if its directory may be changed
(`face?_discarded`).

All this is about a tree of plain files and directories (`Plain`), so that no link leads out of it
or makes two files one, and about sources that are neither in the tree nor the bundle (`Outside`),
so that none is overwritten before it is read. That the bundle is discarded before the files are
collected then makes no difference to what is found.

Out of scope: uploads that fail; what these leave is in `Depot.Proofs.Folder.Failure`.
-/

namespace Depot

open Volume

/-! ## Files that are fetched -/

namespace Folder

variable {f : Folder} {r : Resource} {w w' : World} {source : Path}

/-- A file is fetched by reading the path of its key. -/
theorem perform_getFile {path key : String} (hr : r.check = .ok ())
    (hk : r.fileKey path = .ok key) (w : World) : (w.perform (f.getFile r path).run).1
      = (w.volume.readFile (f.pathOf key)).mapError fun k => .ofIo key (.ofKind k) := by
  rw [getFile, World.perform_bind_of_ok (World.perform_checkResource hr w),
    World.perform_bind_of_ok (World.perform_checkKey hk w), readKey, World.perform_bind_action,
    World.perform_ofReply, World.perform_ofCall, World.answer, readFile]
  cases w.volume.openFile (f.pathOf key) <;> rfl

theorem getFile_eq_ok {path key : String} {c : Content} (hr : r.check = .ok ())
    (hk : r.fileKey path = .ok key) : (w.perform (f.getFile r path).run).1 = .ok c ↔
      w.volume.readFile (f.pathOf key) = .ok c := by
  rw [perform_getFile hr hk]
  cases w.volume.readFile (f.pathOf key) <;> simp [Except.mapError]

/-! ## What an upload does -/

/-- An upload that succeeds discards the bundle, collects files and stores them one after the
other. -/
theorem fills_of_uploadDir (hr : r.check = .ok ())
    (h : w.perform (f.uploadDir r source).run = (.ok (), w')) :
    ∃ found ds, (w.volume.without (f.pathOf r.bundleKey)).stat source = .ok .directory ∧
      (w.volume.without (f.pathOf r.bundleKey)).walk source = .ok found ∧ found ≠ [] ∧
      ds.map Deposit.file = found.map .ofFound ∧
      Fills (f.pathOf r.stem) ds (w.volume.without (f.pathOf r.bundleKey)) w'.volume ∧
      w' = { w with volume := w'.volume } := by
  rw [uploadDir, World.perform_bind_of_ok (World.perform_checkResource hr w),
    World.perform_bind_of_ok (perform_discardBundle w)] at h
  obtain ⟨hdir, files, hne, hcollect, huploads⟩ := uploads_of_uploadEach h
  obtain ⟨⟨found, hwalk, rfl⟩, -⟩ := collect_eq_ok.mp hcollect
  obtain ⟨ds, v, hds, hfills, rfl⟩ := fills_of_uploads huploads
  dsimp only at hdir hwalk hfills ⊢
  exact ⟨found, ds, hdir, hwalk, fun he => hne (by simp [he]), hds, hfills, rfl⟩

/-- The place of a file is in the tree at `d`, at the names that its key is made of. -/
def Deposit.Within (d : Place) (e : Deposit) : Prop :=
  ∃ names, names ≠ [] ∧ e.file.key = Resource.relativeKey names ∧
    e.place = d ++ names.map Name.shown

/-- Places in a tree tell keys apart. -/
theorem Deposit.Within.key_eq {d : Place} {e e' : Deposit} (h : e.Within d) (h' : e'.Within d)
    (hp : e.place = e'.place) : e.file.key = e'.file.key := by
  obtain ⟨names, -, hkey, hplace⟩ := h
  obtain ⟨names', -, hkey', hplace'⟩ := h'
  have hshown := List.append_cancel_left (hplace.symm.trans (hp.trans hplace'))
  rw [hkey, hkey', ← Resource.relativeKey_shown, hshown, Resource.relativeKey_shown]

theorem nodup_places {d : Place} {ds : List Deposit} (hkeys : (ds.map fun e => e.file.key).Nodup)
    (hin : ∀ e ∈ ds, e.Within d) : (ds.map Deposit.place).Nodup := by
  refine List.Nodup.map_on ?_ (List.Nodup.of_map _ hkeys)
  intro e he e' he' hp
  exact List.inj_on_of_nodup_map hkeys he he' ((hin e he).key_eq (hin e' he') hp)

/-- Files with names are stored in the tree, and are where the paths of their keys lead. -/
theorem Fills.within {ds : List Deposit} {v v' : Volume} {d : Place}
    (h : Fills (f.pathOf r.stem) ds v v') (hd : v'.Leads (f.pathOf r.stem) d)
    (hlinks : ∀ p target, v'.face? (d ++ p) ≠ some (.link target)) {e : Deposit} (he : e ∈ ds)
    (hkey : ∃ names, names ≠ [] ∧ e.file.key = Resource.relativeKey names) :
    e.Within d ∧ ∀ fc, v'.face? e.place = some fc →
      v'.Leads (f.pathOf (r.stem ++ "/" ++ e.file.key)) e.place := by
  obtain ⟨names, hne, hkey⟩ := hkey
  obtain ⟨s, hs, hp⟩ := h.found e he
  rw [hkey, ← pathOf_fileKey] at hs
  obtain ⟨d', hd', hplace⟩ := place_of_find_file hne hs
  obtain rfl := hd.inj hd'
  obtain ⟨hplace, hclosed⟩ := hplace hlinks
  refine ⟨⟨names, hne, hkey, hp.symm.trans hplace⟩, ?_⟩
  intro fc hfc
  obtain ⟨node, hn, -⟩ := face?_eq_some.mp hfc
  rw [hkey]
  exact ⟨node, existing_eq_ok.mpr ⟨s, find_follow_of_create hs, hp,
    (sound_of_find hs).node.trans (hp ▸ hn), by simp [hclosed]⟩⟩

/-! ## Plain trees -/

end Folder

namespace Node

mutual

/-- Whether a node and all below it are files and directories. -/
def isPlain : Node → Bool
  | .file .. => true
  | .directory _ entries => arePlain entries
  | _ => false

/-- Whether entries and all below them are files and directories. -/
def arePlain : List (Name × Node) → Bool
  | [] => true
  | (_, node) :: rest => isPlain node && arePlain rest

end

theorem isPlain_of_lookup {n : Name} {x : Node} : {entries : List (Name × Node)} →
    arePlain entries = true → entries.lookup n = some x → x.isPlain = true
  | (m, y) :: rest, h, hx => by
    rw [arePlain, Bool.and_eq_true] at h
    rw [lookup_cons_if] at hx
    split at hx
    · exact Option.some.inj hx ▸ h.1
    · exact isPlain_of_lookup h.2 hx

theorem isPlain_of_get? {x : Node} : {node : Node} → {p : Place} → node.isPlain = true →
    node.get? p = some x → x.isPlain = true
  | node, [], h, hx => by
    rw [get?] at hx
    exact Option.some.inj hx ▸ h
  | .directory mode entries, n :: p, h, hx => by
    rw [get?] at hx
    obtain ⟨child, hchild, hx⟩ := Option.bind_eq_some_iff.mp hx
    rw [isPlain] at h
    exact isPlain_of_get? (isPlain_of_lookup h hchild) hx

theorem face_of_isPlain {node : Node} (h : node.isPlain = true) : node.face.IsPlain := by
  cases node with
  | file mode c => trivial
  | directory mode entries => trivial
  | _ => exact absurd h (by simp [isPlain])

end Node

namespace Folder

variable {f : Folder} {r : Resource} {w w' : World} {source : Path}

/-- What a folder holds of a resource, with its tree at a place, are plain files and directories. -/
structure Plain (f : Folder) (r : Resource) (v : Volume) (d : Place) : Prop where
  tree : ∀ p fc, v.face? (d ++ p) = some fc → fc.IsPlain
  bundle : ∀ p fc, v.Names (f.pathOf r.bundleKey) p → v.face? p = some fc → fc.IsPlain

/-- Plain nodes make a plain tree. -/
theorem plain_of_isPlain {v : Volume} {d : Place} (ht : (v.node? d).all Node.isPlain = true)
    (hb : ∀ p, v.Names (f.pathOf r.bundleKey) p → (v.node? p).all Node.isPlain = true) :
    f.Plain r v d := by
  constructor
  · intro p fc hfc
    obtain ⟨node, hn, rfl⟩ := face?_eq_some.mp hfc
    rw [node?, Node.get?_append] at hn
    obtain ⟨top, htop, hn⟩ := Option.bind_eq_some_iff.mp hn
    rw [node?, htop] at ht
    exact Node.face_of_isPlain (Node.isPlain_of_get? ht hn)
  · intro p fc hp hfc
    obtain ⟨node, hn, rfl⟩ := face?_eq_some.mp hfc
    have hplain := hb p hp
    rw [hn] at hplain
    exact Node.face_of_isPlain hplain

/-- A file to upload leads to a place that is not in the tree, and is not the bundle. -/
def Outside (f : Folder) (r : Resource) (v : Volume) (d : Place) (file : SourceFile) : Prop :=
  ∃ p, v.Leads file.path p ∧ ¬ d <+: p ∧ ¬ v.Names (f.pathOf r.bundleKey) p

variable {d : Place}

/-- Discarding the bundle changes nothing else. -/
theorem Plain.spares (h : f.Plain r w.volume d) :
    Volume.Spares (w.volume.Names (f.pathOf r.bundleKey)) w.volume
      (w.volume.without (f.pathOf r.bundleKey)) :=
  spares_without (fun _ => id) fun p _ hp hl => h.bundle p _ hp hl

theorem Plain.no_link (h : f.Plain r w.volume d) {v : Volume} (hv : Steady w.volume v) (p : Place)
    (target : Path) : v.face? (d ++ p) ≠ some (.link target) := by
  intro hl
  rw [hv.link] at hl
  exact h.tree p _ hl

/-- An upload changes nothing but the bundle and the files that it stores. -/
theorem Plain.spares_of_fills {ds : List Deposit} (h : f.Plain r w.volume d)
    (hfills : Fills (f.pathOf r.stem) ds (w.volume.without (f.pathOf r.bundleKey)) w'.volume) :
    Volume.Spares (fun p => w.volume.Names (f.pathOf r.bundleKey) p ∨ ∃ e ∈ ds, p = e.place)
      w.volume w'.volume :=
  (h.spares.mono fun _ => .inl).trans (hfills.spares.mono fun _ => .inr)

/-- After an upload there is a tree. -/
theorem exists_tree (hr : r.check = .ok ())
    (hup : w.perform (f.uploadDir r source).run = (.ok (), w')) :
    ∃ d, w'.volume.Leads (f.pathOf r.stem) d := by
  obtain ⟨found, ds, hdir, hwalk, hne, hds, hfills, -⟩ := fills_of_uploadDir hr hup
  obtain ⟨p, node, hn, hnode⟩ := exists_of_stat hdir
  obtain ⟨x, rest, rfl⟩ := List.exists_cons_of_ne_nil hne
  obtain ⟨e, others, rfl, he, -⟩ := List.map_eq_cons_iff.mp hds
  obtain ⟨s, hs, -⟩ := hfills.found e List.mem_cons_self
  rw [he, SourceFile.ofFound, ← pathOf_fileKey] at hs
  have hne := names_ne_nil_of_walk hnode hn hwalk x List.mem_cons_self
  obtain ⟨d, hd, -⟩ := place_of_find_file hne hs
  exact ⟨d, hd⟩

/-- What becomes of a file in an upload from `w` to `w'`, with the tree at `d`: it is stored with
the content that its source had, at a place in the tree to which the path of its key leads, and may
be read if what was there before could be. -/
structure Deposited (f : Folder) (r : Resource) (w w' : World) (d : Place) (e : Deposit) :
    Prop where
  within : e.Within d
  leads : w'.volume.Leads (f.pathOf (r.stem ++ "/" ++ e.file.key)) e.place
  read : w.volume.readFile e.file.path = .ok e.content
  stored : ∃ mode, w'.volume.face? e.place = some (.file mode e.content) ∧
    ((∀ old c, w.volume.face? e.place = some (.file old c) → old.reads = true) → mode.reads = true)

/-- The files that were collected before an upload are those that it stores. -/
theorem exists_fills {files : List SourceFile} (hr : r.check = .ok ())
    (hfiles : w.perform (collect source).run = (.ok files, w))
    (hup : w.perform (f.uploadDir r source).run = (.ok (), w')) (hplain : f.Plain r w.volume d)
    (hout : ∀ file ∈ files, f.Outside r w.volume d file) :
    ∃ ds, ds.map Deposit.file = files ∧ w' = { w with volume := w'.volume } ∧
      Fills (f.pathOf r.stem) ds (w.volume.without (f.pathOf r.bundleKey)) w'.volume ∧
      ∀ e ∈ ds, ∃ names, names ≠ [] ∧ e.file.key = Resource.relativeKey names := by
  obtain ⟨found, ds, hdir, hwalk, -, hds, hfills, hrest⟩ := fills_of_uploadDir hr hup
  obtain ⟨p, node, hn, hnode⟩ := exists_of_stat hdir
  obtain ⟨⟨before, hbefore, rfl⟩, -⟩ := collect_eq_ok.mp hfiles
  -- no file that was collected is taken away with the bundle
  have hsame : found = before := by
    refine walk_without hplain.bundle hnode hn hbefore hwalk ?_
    intro x hx
    obtain ⟨q, hq, -, hnot⟩ := hout _ (List.mem_map_of_mem hx)
    exact ⟨q, hq, hnot⟩
  subst hsame
  refine ⟨ds, hds, hrest, hfills, ?_⟩
  intro e he
  obtain ⟨x, hx, hxe⟩ := List.mem_map.mp (hds ▸ List.mem_map_of_mem he)
  exact ⟨x.names, names_ne_nil_of_walk hnode hn hwalk x hx, congrArg SourceFile.key hxe.symm⟩

/-- The files that were collected before an upload are deposited. -/
theorem exists_deposits {files : List SourceFile} (hr : r.check = .ok ())
    (hfiles : w.perform (collect source).run = (.ok files, w))
    (hkeys : (files.map SourceFile.key).Nodup)
    (hup : w.perform (f.uploadDir r source).run = (.ok (), w'))
    (hd : w'.volume.Leads (f.pathOf r.stem) d) (hplain : f.Plain r w.volume d)
    (hout : ∀ file ∈ files, f.Outside r w.volume d file) :
    ∃ ds, ds.map Deposit.file = files ∧ w' = { w with volume := w'.volume } ∧
      Fills (f.pathOf r.stem) ds (w.volume.without (f.pathOf r.bundleKey)) w'.volume ∧
      ∀ e ∈ ds, f.Deposited r w w' d e := by
  obtain ⟨ds, rfl, hrest, hfills, hnames⟩ := exists_fills hr hfiles hup hplain hout
  have hspares := hplain.spares
  have hlinks := hplain.no_link (hplain.spares_of_fills hfills).toSteady
  have hwithin : ∀ e ∈ ds, e.Within d := by
    intro e he
    exact (hfills.within hd hlinks he (hnames e he)).1
  have hsource : ∀ e ∈ ds, ∃ q, w.volume.Leads e.file.path q ∧
      ¬ w.volume.Names (f.pathOf r.bundleKey) q ∧ ∀ e' ∈ ds, q ≠ e'.place := by
    intro e he
    obtain ⟨q, hq, hnotin, hnot⟩ := hout _ (List.mem_map_of_mem he)
    refine ⟨q, hq, hnot, ?_⟩
    intro e' he' hp
    obtain ⟨names, -, -, hplace⟩ := hwithin e' he'
    exact hnotin (hp.trans hplace ▸ List.prefix_append _ _)
  have hfaulty : ∀ e ∈ ds, ∀ given, (w.volume.without (f.pathOf r.bundleKey)).face? e.place
      ≠ some (.faulty given) := by
    intro e he given hf
    obtain ⟨names, -, -, hplace⟩ := hwithin e he
    exact hplain.tree _ _ (hplace ▸ face?_of_without hf)
  have hplaces : (ds.map Deposit.place).Nodup := by
    rw [List.map_map] at hkeys
    exact nodup_places hkeys hwithin
  have hread := hfills.read fun e he => by
    obtain ⟨q, hq, hnot, hne⟩ := hsource e he
    exact ⟨q, hspares.leads hq hnot, hne⟩
  refine ⟨ds, rfl, hrest, hfills, ?_⟩
  intro e he
  obtain ⟨mode, hface, hreads⟩ := hfills.stored hplaces hfaulty e he
  obtain ⟨q, hq, hnot, -⟩ := hsource e he
  exact {
    within := hwithin e he
    leads := (hfills.within hd hlinks he (hnames e he)).2 _ hface
    read := (hspares.readFile_eq_ok hq hnot).mp (hread e he)
    stored := ⟨mode, hface, fun hold => hreads fun old c hc => hold old c (face?_of_without hc)⟩ }

/-- The bundle is gone if its directory may be changed: it is not in the tree, so no file is stored
in its place. -/
theorem face?_discarded {ds : List Deposit} {s : Spot} (hr : r.check = .ok ())
    (hfills : Fills (f.pathOf r.stem) ds (w.volume.without (f.pathOf r.bundleKey)) w'.volume)
    (hplain : f.Plain r w.volume d) (hd : w'.volume.Leads (f.pathOf r.stem) d)
    (hin : ∀ e ∈ ds, e.Within d) (hs : w.volume.find .keep (f.pathOf r.bundleKey) = .ok s)
    (hchange : w.volume.canChange s.directory = true) (mode : Mode) (c : Content) :
    w'.volume.face? s.place ≠ some (.file mode c) := by
  have hsteady := (hplain.spares_of_fills hfills).toSteady
  obtain ⟨-, hname, hclosed⟩ := spot_of_find_bundle hr hs
  have hnot : ¬ ∃ e ∈ ds, s.place = e.place := by
    rintro ⟨e, he, hp⟩
    obtain ⟨names, hne, -, hplace⟩ := hin e he
    exact bundle_not_in_tree hr (hsteady.find hs) hd (hplain.no_link hsteady)
      (List.map_eq_nil_iff.not.mpr hne) (hp.trans hplace)
  intro hf
  exact face?_without_ne_file hs hname hclosed hchange mode c
    ((hfills.spares.face?_file hnot).mp hf)

end Folder

end Depot
