import Depot.Proofs.Folder.RoundTrip
import Depot.Proofs.Folder.View
import Depot.Proofs.Volume.Descent

/-!
# The first upload to a folder

An upload to a folder in which there is nothing (`Folder.Bare`) grows a tree (`Folder.Grown`): all
that is in it are the files that are uploaded and the directories on the way to them, and where
several files have one key, which happens if their names cannot be shown, the last one stays
(`Bare.grown`).

Names behind the tree lead to one of these files, to one of these directories, or they leave the
tree (`inTree_or_leave`). What is missing is not found (`Grown.readFile_missing`); everything else
that was not uploaded fails in another way (`Grown.missing_or_fails`), because it is a directory,
because the names go on behind a file, or because the system does not take them.

Out of scope: owners and kinds by which the tree is not below the base.
-/

namespace Depot

open Volume

namespace Resource

/-- Keys tell names apart as far as they are shown. -/
theorem relativeKey_inj {names names' : List Name} (h : names ≠ []) (h' : names' ≠ []) :
    relativeKey names = relativeKey names' ↔ names.map Name.shown = names'.map Name.shown := by
  constructor
  · intro he
    have hpieces := (pieces_relativeKey_shown h).symm.trans
      ((congrArg (fun key => (Path.ofString key).pieces) he).trans (pieces_relativeKey_shown h'))
    exact List.map_injective_iff.mpr (fun n m he => Name.mk.injEq .. ▸ he) hpieces
  · intro he
    rw [← relativeKey_shown names, he, relativeKey_shown]

end Resource

/-- Of the files with one key one is the last. -/
theorem SourceFile.exists_last {files : List SourceFile} {file : SourceFile} (h : file ∈ files) :
    ∃ pre last post, files = pre ++ last :: post ∧ last.key = file.key ∧
      ∀ other ∈ post, other.key ≠ file.key := by
  have hsome : (files.reverse.find? (·.key == file.key)).isSome :=
    List.find?_isSome.mpr ⟨file, List.mem_reverse.mpr h, beq_self_eq_true _⟩
  obtain ⟨last, hlast⟩ := Option.isSome_iff_exists.mp hsome
  obtain ⟨hkey, post, pre, hsplit, hpost⟩ := List.find?_eq_some_iff_append.mp hlast
  refine ⟨pre.reverse, last, post.reverse, ?_, by simpa using hkey, by simpa using hpost⟩
  rw [← List.reverse_reverse files, hsplit, List.reverse_append, List.reverse_cons,
    List.append_assoc, List.singleton_append]

namespace Folder

variable {f : Folder} {r : Resource} {v v' : Volume} {w w' : World} {lead x d q : Place}
  {files : List SourceFile} {source : Path} {names before after : List Name} {n : Name}

/-! ## Folders in which there is nothing -/

/-- The base is a directory, and there is nothing in it. -/
def Bare (f : Folder) (v : Volume) : Prop :=
  ∃ c mode, v.Leads f.base c ∧ v.face? c = some (.directory mode) ∧
    ∀ x, x ≠ [] → v.face? (c ++ x) = none

/-- Where the versions are going to be, there is nothing. -/
theorem Bare.fresh (hr : r.check = .ok ()) (hd : r.Descends) (h : f.Bare v) (hv : Steady v v')
    (hl : v'.Leads (f.leadPath r) lead) (hx : x ≠ []) : v.face? (lead ++ x) = none := by
  obtain ⟨c, mode, hc, hm, hnone⟩ := h
  obtain ⟨names, hclimbs⟩ := exists_climbs_leadPath hr hd hc.bytes_ne_nil
  have hm' := hv.directory c mode hm
  have hlead : lead = c ++ names := by
    refine place_of_climbs hclimbs (leads_trimmed (hc.steady hv hm') hm') ?_ hl
    intro more target hne _ ht
    exact absurd ((hnone more hne).symm.trans ((hv.link _ _).mp ht)) (by simp)
  rw [hlead, List.append_assoc]
  exact hnone _ (List.append_ne_nil_of_right_ne_nil _ hx)

theorem Bare.view (hr : r.check = .ok ()) (hd : r.Descends) (h : f.Bare v) (hx : x ≠ []) :
    f.view r v x = none := by
  by_cases hl : ∃ lead, v.Leads (f.leadPath r) lead
  · obtain ⟨lead, hl⟩ := hl
    rw [view_of_leads hl, h.fresh hr hd (.refl v) hl hx]
    rfl
  · exact view_eq_none (fun lead hlead => hl ⟨lead, hlead⟩) x

theorem Bare.grounded (hd : r.Descends) (h : f.Bare v) : f.Grounded r v := by
  obtain ⟨c, mode, hc, hm, -⟩ := h
  exact ⟨⟨c, mode, hc, hm⟩, fun hup => absurd hup hd.not_goesUp⟩

theorem Bare.obeys (hr : r.check = .ok ()) (hd : r.Descends) (h : f.Bare v) {rule : Rule}
    (hrule : ∀ x, r.Own x → rule x none) : f.Obeys r rule v :=
  ⟨h.grounded hd, fun x hx => h.view hr hd hx.ne_nil ▸ hrule x hx⟩

/-- There is no bundle to discard. -/
theorem Bare.without (hr : r.check = .ok ()) (hd : r.Descends) (h : f.Bare v) :
    v.without (f.pathOf r.bundleKey) = v := by
  obtain hv | ⟨d, n, node, hs, -⟩ := v.without_cases (f.pathOf r.bundleKey)
  · exact hv
  · obtain ⟨hl, hn, -⟩ := spot_of_find_bundle hr hs
    have hnone := h.fresh hr hd (.refl v) hl (List.cons_ne_nil n [])
    have hface : v.face? (d ++ [n]) = some node.face :=
      face?_eq_some.mpr ⟨node, (sound_of_find hs).get?_place rfl, rfl⟩
    exact absurd (hnone.symm.trans hface) (by simp)

/-! ## The tree that grows -/

/-- What an upload of files may leave in the tree. -/
inductive Grows (files : List SourceFile) : Place → Shape → Prop where
  | file {file : SourceFile} {names : List Name} {c : Content} (h : file ∈ files)
      (hkey : file.key = Resource.relativeKey names) : Grows files (names.map Name.shown) (.file c)
  | directory {file : SourceFile} {names : List Name} {q : Place} (h : file ∈ files)
      (hkey : file.key = Resource.relativeKey names)
      (hq : q <+: (names.map Name.shown).dropLast) : Grows files q .directory

/-- The tree is what an upload of files may leave, and there is no bundle. -/
def growth (r : Resource) (files : List SourceFile) : Rule := fun x s =>
  (∀ q sh, x = r.treeName :: q → s = some sh → Grows files q sh) ∧ (x = [r.bundleName] → s = none)

theorem admits_growth {file : SourceFile} (hd : r.Descends) (h : file ∈ files)
    (hkey : file.key = Resource.relativeKey names) : Admits r (growth r files) names := by
  constructor
  · intro x hx hway
    obtain ⟨n, q, rfl⟩ := List.exists_cons_of_ne_nil hx.ne_nil
    obtain ⟨rfl, hq⟩ := List.cons_prefix_cons.mp (hway.resolve_right hd.not_goesUp)
    refine ⟨?_, fun he => absurd he (r.tree_ne_bundle q)⟩
    rintro _ _ ⟨⟩ ⟨⟩
    exact .directory h hkey hq
  · intro c
    refine ⟨?_, fun he => absurd he (r.tree_ne_bundle _)⟩
    rintro _ _ ⟨⟩ ⟨⟩
    exact .file h hkey

theorem not_growth_other (files : List SourceFile) (q : Place) :
    ¬ growth r files (r.treeName :: q) (some .other) :=
  fun hg => nomatch hg.1 q .other rfl rfl

/-- Whether it succeeds or not, an upload to a folder in which there is nothing leaves no more than
the files of its source and the directories on the way to them. -/
theorem Bare.obeys_growth (hr : r.check = .ok ()) (hd : r.Descends) (h : f.Bare w.volume)
    (hnames : ∀ file ∈ w.volume.filesIn source,
      ∃ names, names ≠ [] ∧ file.key = Resource.relativeKey names) :
    f.Obeys r (growth r (w.volume.filesIn source))
      (w.perform (f.uploadDir r source).run).2.volume := by
  refine Obeys.uploadDir hr ?_ (not_growth_other _) fun file hf => ?_
  · rw [h.without hr hd]
    exact h.obeys hr hd fun x _ => ⟨fun _ _ _ hs => absurd hs (by simp), fun _ => rfl⟩
  · rw [h.without hr hd] at hf
    obtain ⟨names, hne, hkey⟩ := hnames file hf
    exact ⟨names, hne, hkey, admits_growth hd hf hkey⟩

/-- All that is in the tree is what the upload may leave there. -/
theorem Obeys.grows (hr : r.check = .ok ()) (h : f.Obeys r (growth r files) v)
    (htree : v.Leads (f.pathOf r.stem) d) {fc : Face} (hfc : v.face? (d ++ q) = some fc) :
    Grows files q fc.shape := by
  have hother := h.no_other (.tree []) (not_growth_other files [])
  have hat := at_tree hr hother htree
  refine (h.shown _ (.tree q)).1 q fc.shape rfl ?_
  rw [hat.behind, hfc]
  rfl

/-- The tree after the first upload of files, which were read in the volume before. -/
structure Grown (f : Folder) (r : Resource) (files : List SourceFile) (before v : Volume)
    (d : Place) : Prop where
  leads : v.Leads (f.pathOf r.stem) d
  stored : ∀ pre file post, files = pre ++ file :: post →
    (∀ other ∈ post, other.key ≠ file.key) → ∃ names mode c, names ≠ [] ∧
      file.key = Resource.relativeKey names ∧
      v.Leads (f.pathOf (r.stem ++ "/" ++ file.key)) (d ++ names.map Name.shown) ∧
      v.face? (d ++ names.map Name.shown) = some (.file mode c) ∧ mode.reads = true ∧
      before.readFile file.path = .ok c
  only : ∀ q fc, v.face? (d ++ q) = some fc → Grows files q fc.shape

theorem Bare.grown (hr : r.check = .ok ()) (hd : r.Descends) (h : f.Bare w.volume)
    (hfiles : w.perform (collect source).run = (.ok files, w))
    (hread : ∀ file ∈ files, ∃ c, w.volume.readFile file.path = .ok c)
    (hup : w.perform (f.uploadDir r source).run = (.ok (), w')) :
    ∃ d, f.Grown r files w.volume w'.volume d := by
  obtain ⟨found, ds, hdir, hwalk, -, hds, hfills, -⟩ := fills_of_uploadDir hr hup
  rw [h.without hr hd] at hdir hwalk hfills
  obtain ⟨⟨found', hwalk', rfl⟩, -⟩ := collect_eq_ok.mp hfiles
  obtain rfl := Except.ok.inj (hwalk.symm.trans hwalk')
  have hnames := exists_names_of_collect hdir hfiles
  obtain ⟨d, htree⟩ := exists_tree hr hup
  have hobeys : f.Obeys r (growth r (found.map .ofFound)) w'.volume := by
    have hin : w.volume.filesIn source = found.map .ofFound := by
      rw [Volume.filesIn, hdir, hwalk]
    have hsame : (w.perform (f.uploadDir r source).run).2 = w' := congrArg Prod.snd hup
    exact hin ▸ hsame ▸ h.obeys_growth hr hd fun file hf => hnames file (hin ▸ hf)
  have hother : ∀ q, f.view r w'.volume (r.treeName :: q) ≠ some .other := fun q =>
    hobeys.no_other (.tree q) (not_growth_other _ q)
  have hat := at_tree hr (hother []) htree
  have hlinks := hat.no_link hother
  obtain ⟨lead, hlead, rfl⟩ := hat
  have hfresh : ∀ p, w.volume.face? (lead ++ [r.treeName] ++ p) = none := fun p =>
    List.append_cons lead r.treeName p ▸
      h.fresh hr hd hfills.spares.toSteady hlead (List.cons_ne_nil r.treeName p)
  refine ⟨_, htree, fun pre file post hsplit hlast => ?_, fun q fc => hobeys.grows hr htree⟩
  -- no file is uploaded from where there is nothing
  have hwithin : ∀ e ∈ ds, e.Within (lead ++ [r.treeName]) ∧ ∀ fc,
      w'.volume.face? e.place = some fc →
        w'.volume.Leads (f.pathOf (r.stem ++ "/" ++ e.file.key)) e.place := fun e he =>
    hfills.within htree hlinks he (hnames e.file (hds ▸ List.mem_map_of_mem he))
  have hnone : ∀ e ∈ ds, w.volume.face? e.place = none := by
    intro e he
    obtain ⟨names, -, -, hplace⟩ := (hwithin e he).1
    exact hplace ▸ hfresh _
  have hcontents := hfills.read fun e he => by
    obtain ⟨c, hc⟩ := hread e.file (hds ▸ List.mem_map_of_mem he)
    obtain ⟨p, mode, hp, hface, -⟩ := readFile_eq_ok.mp hc
    exact ⟨p, hp, fun e' he' hpe => absurd ((hpe ▸ hnone e' he').symm.trans hface) (by simp)⟩
  obtain ⟨dpre, drest, rfl, -, hrest⟩ := List.map_eq_append_iff.mp (hds.trans hsplit)
  obtain ⟨e, dpost, rfl, rfl, rfl⟩ := List.map_eq_cons_iff.mp hrest
  have he : e ∈ dpre ++ e :: dpost := by simp
  obtain ⟨⟨names, hne, hkey, hplace⟩, hleads⟩ := hwithin e he
  obtain ⟨mode, hface, hreads⟩ := hfills.last (fun e' he' hp => hlast e'.file
    (List.mem_map_of_mem he') ((hwithin e' (by simp [he'])).1.key_eq (hwithin e he).1 hp))
    (by simp [hnone e he])
  refine ⟨names, mode, e.content, hne, hkey, hplace ▸ hleads _ hface, hplace ▸ hface,
    hreads fun old c hc => ?_, hcontents e he⟩
  exact absurd ((hnone e he).symm.trans hc) (by simp)

/-! ## Files that are read in the tree -/

/-- The names lead to a file that is uploaded, or to a directory on the way to one. -/
def InTree (files : List SourceFile) (names : List Name) : Prop :=
  ∃ file ∈ files, ∃ more, file.key = Resource.relativeKey (names ++ more)

/-- The names lead to a directory on the way to a file that is uploaded. -/
def IsFolder (files : List SourceFile) (names : List Name) : Prop :=
  ∃ file ∈ files, ∃ more, more ≠ [] ∧ file.key = Resource.relativeKey (names ++ more)

/-- Names that begin a key are names of the tree. -/
theorem inTree_of_prefix {file : SourceFile} (h : file ∈ files)
    (hkey : file.key = Resource.relativeKey after)
    (hp : names.map Name.shown <+: after.map Name.shown) : InTree files names := by
  obtain ⟨more, hmore⟩ := hp
  refine ⟨file, h, more, hkey.trans ?_⟩
  have hshown : more.map Name.shown = more := by
    have hmem : ∀ n ∈ more, n.shown = n := by
      intro n hn
      obtain ⟨m, -, rfl⟩ := List.mem_map.mp (hmore ▸ List.mem_append_right _ hn)
      exact Name.shown_inj.mpr m.display_shown
    exact (List.map_congr_left hmem).trans (List.map_id _)
  rw [← Resource.relativeKey_shown after, ← hmore, ← Resource.relativeKey_shown (names ++ more),
    List.map_append, hshown]

/-- Names are in the tree, or one of them leaves it. -/
theorem inTree_or_leave (h : InTree files []) (names : List Name) : InTree files names ∨
    ∃ before n after, names = before ++ n :: after ∧ InTree files before ∧
      ¬ InTree files (before ++ [n]) := by
  induction names using List.reverseRecOn with
  | nil => exact .inl h
  | append_singleton init n ih =>
    obtain hin | ⟨before, m, after, rfl, hin, hnew⟩ := ih
    · by_cases hnew : InTree files (init ++ [n])
      · exact .inl hnew
      · exact .inr ⟨init, n, [], rfl, hin, hnew⟩
    · exact .inr ⟨before, m, after ++ [n], by simp, hin, hnew⟩

/-- A lookup that fails, but not because there is nothing. -/
def Fails (v : Volume) (path : Path) : Prop :=
  ∃ k, k ≠ .notFound ∧ v.readFile path = .error k

theorem readFile_of_existing {path : Path} {k : IoKind}
    (h : v.existing .follow path = .error k) : v.readFile path = .error k := by
  rw [readFile, openFile, h]
  rfl

theorem fails_of_not_fits {path : Path} (h : ¬ path.Fits) : Fails v path := by
  obtain ⟨k, hk, hfind⟩ := v.find_of_not_fits .follow h
  exact ⟨k, hk, readFile_of_existing (by rw [existing, hfind]; rfl)⟩

theorem fails_of_directory {path : Path} {p : Place} {node : Node} {mode : Mode}
    (h : v.existing .follow path = .ok (p, node)) (hnode : node.face = .directory mode) :
    Fails v path := by
  have hp := node?_of_existing h
  cases node with
  | directory mode entries =>
    by_cases hreads : mode.reads = true
    · have hopen : v.openFile path = .ok p := by
        rw [openFile, h]
        exact if_pos hreads
      refine ⟨.isADirectory, by simp, ?_⟩
      rw [readFile, hopen]
      change v.readAt p = _
      rw [readAt, givenAt, hp]
    · have hopen : v.openFile path = .error .permissionDenied := by
        rw [openFile, h]
        exact if_neg hreads
      refine ⟨.permissionDenied, by simp, ?_⟩
      rw [readFile, hopen]
      rfl
  | _ => exact absurd hnode (by simp [Node.face])

/-- The names leave the directories of the tree by a name that is not in it, on a path that the
system looks up. -/
inductive Missing (f : Folder) (r : Resource) (files : List SourceFile) : List Name → Prop where
  | leave {before after : List Name} {n : Name} (hfolder : IsFolder files before)
      (hnew : ¬ InTree files (before ++ [n])) (hshort : n.shown.bytes.length ≤ maxName)
      (hfits :
        (f.pathOf (r.stem ++ "/" ++ Resource.relativeKey (before ++ n :: after))).Fits) :
      Missing f r files (before ++ n :: after)

namespace Grown

variable {start : Volume} (h : f.Grown r files start v d)
include h

theorem no_link (p : Place) (target : Path) : v.face? (d ++ p) ≠ some (.link target) :=
  fun ht => nomatch h.only p _ ht

/-- Every key of a file that is uploaded has its file. -/
theorem stored_of_mem {file : SourceFile} (hf : file ∈ files) :
    ∃ names mode c, names ≠ [] ∧ file.key = Resource.relativeKey names ∧
      v.Leads (f.pathOf (r.stem ++ "/" ++ file.key)) (d ++ names.map Name.shown) ∧
      v.face? (d ++ names.map Name.shown) = some (.file mode c) := by
  obtain ⟨pre, last, post, hsplit, hsame, hlast⟩ := SourceFile.exists_last hf
  obtain ⟨names, mode, c, hne, hkey, hleads, hface, -⟩ :=
    h.stored pre last post hsplit fun other ho => hsame ▸ hlast other ho
  exact ⟨names, mode, c, hne, hsame.symm.trans hkey, hsame ▸ hleads, hface⟩

theorem exists_file {file : SourceFile} (hf : file ∈ files)
    (hkey : file.key = Resource.relativeKey names) (hne : names ≠ []) :
    v.Leads (f.pathOf (r.stem ++ "/" ++ Resource.relativeKey names)) (d ++ names.map Name.shown) ∧
      ∃ mode c, v.face? (d ++ names.map Name.shown) = some (.file mode c) := by
  obtain ⟨names', mode, c, hne', hkey', hleads, hface⟩ := h.stored_of_mem hf
  have heq := hkey'.symm.trans hkey
  rw [(Resource.relativeKey_inj hne' hne).mp heq] at hleads hface
  exact ⟨hkey ▸ hleads, mode, c, hface⟩

/-- The directories on the way to a file can be passed. -/
theorem passable {file : SourceFile} (hf : file ∈ files)
    (hkey : file.key = Resource.relativeKey (names ++ [n])) :
    v.Passable d (names.map Name.shown) ∧ n.shown.bytes.length ≤ maxName := by
  have hne : names ++ [n] ≠ [] := by simp
  obtain ⟨⟨node, hnode⟩, -⟩ := h.exists_file hf hkey hne
  obtain ⟨s, hs, -⟩ := existing_eq_ok.mp hnode
  rw [pathOf_fileKey] at hs
  refine passable_of_find h.leads (Resource.isAbsolute_relativeKey _) ?_ h.no_link hs
  rw [Resource.route_relativeKey hne, List.map_append, List.map_singleton]

theorem passable_of_isFolder (hfolder : IsFolder files names) :
    v.Passable d (names.map Name.shown) := by
  obtain ⟨file, hf, more, hne, hkey⟩ := hfolder
  obtain ⟨init, m, rfl⟩ := (List.eq_nil_or_concat' more).resolve_left hne
  rw [← List.append_assoc] at hkey
  refine (h.passable hf hkey).1.mono ?_
  rw [List.map_append]
  exact List.prefix_append _ _

omit h in
theorem route_cons (before after : List Name) (n : Name) :
    (Path.ofString (Resource.relativeKey (before ++ n :: after))).route
      = (before.map Name.shown ++ n.shown :: after.map Name.shown).map .name := by
  rw [Resource.route_relativeKey (by simp), List.map_append, List.map_cons]

/-- From a directory of the tree a name that is too long leads nowhere. -/
theorem readFile_long (hfolder : IsFolder files before) (hlong : maxName < n.shown.bytes.length)
    (hfits : (f.pathOf (r.stem ++ "/" ++ Resource.relativeKey (before ++ n :: after))).Fits) :
    v.readFile (f.pathOf (r.stem ++ "/" ++ Resource.relativeKey (before ++ n :: after)))
      = .error .invalidFilename := by
  rw [pathOf_fileKey] at hfits ⊢
  exact readFile_of_existing (existing_of_long h.leads (Resource.isAbsolute_relativeKey _)
    (route_cons before after n) (h.passable_of_isFolder hfolder) hfits hlong)

/-- Where names leave the directories of the tree, there is nothing. -/
theorem readFile_missing (hmissing : f.Missing r files names) :
    v.readFile (f.pathOf (r.stem ++ "/" ++ Resource.relativeKey names)) = .error .notFound := by
  obtain ⟨hfolder, hnew, hshort, hfits⟩ := hmissing
  next before after n =>
  have hnone : v.face? (d ++ (before.map Name.shown ++ [n.shown])) = none := by
    refine Option.eq_none_iff_forall_ne_some.mpr fun fc hfc => hnew ?_
    have hgrows := h.only _ fc hfc
    rw [← List.map_singleton, ← List.map_append] at hgrows
    generalize hq : (before ++ [n]).map Name.shown = q, fc.shape = sh at hgrows
    cases hgrows with
    | file hf hkey => exact inTree_of_prefix hf hkey (hq ▸ List.prefix_refl _)
    | directory hf hkey hp =>
      exact inTree_of_prefix hf hkey (hq ▸ hp.trans (List.dropLast_prefix _))
  rw [pathOf_fileKey] at hfits ⊢
  exact readFile_of_existing (existing_of_missing h.leads (Resource.isAbsolute_relativeKey _)
    (route_cons before after n) (h.passable_of_isFolder hfolder) hfits hshort hnone)

/-- Behind a file there is nothing to look up. -/
theorem readFile_behind {file : SourceFile} (hf : file ∈ files)
    (hkey : file.key = Resource.relativeKey before) (hne : before ≠ [])
    (hfits : (f.pathOf (r.stem ++ "/" ++ Resource.relativeKey (before ++ n :: after))).Fits) :
    v.readFile (f.pathOf (r.stem ++ "/" ++ Resource.relativeKey (before ++ n :: after)))
      = .error .notADirectory := by
  obtain ⟨-, mode, c, hface⟩ := h.exists_file hf hkey hne
  obtain ⟨init, m, rfl⟩ := (List.eq_nil_or_concat' before).resolve_left hne
  obtain ⟨hpass, hshort⟩ := h.passable hf hkey
  rw [List.map_append, List.map_singleton] at hface
  rw [List.append_assoc, List.singleton_append, pathOf_fileKey] at hfits ⊢
  exact readFile_of_existing (existing_of_blocked h.leads (Resource.isAbsolute_relativeKey _)
    (route_cons init (n :: after) m) hpass hfits hshort hface trivial (by simp))

/-- A directory of the tree cannot be read. -/
theorem fails_folder (hfolder : IsFolder files names) (hne : names ≠ [])
    (hfits : (f.pathOf (r.stem ++ "/" ++ Resource.relativeKey names)).Fits) :
    Fails v (f.pathOf (r.stem ++ "/" ++ Resource.relativeKey names)) := by
  have hpass := h.passable_of_isFolder hfolder
  obtain ⟨mode, hface, -⟩ := entered_eq_ok.mp (hpass.entered _ (List.prefix_refl _))
  obtain ⟨init, m, rfl⟩ := (List.eq_nil_or_concat' names).resolve_left hne
  rw [List.map_append, List.map_singleton] at hpass hface
  have hshort := hpass.short m.shown (by simp)
  rw [pathOf_fileKey] at hfits ⊢
  obtain ⟨p, node, hnode, hex⟩ := existing_of_directory h.leads (Resource.isAbsolute_relativeKey _)
    (route_cons init [] m) (hpass.mono (List.prefix_append _ _)) hfits hshort hface rfl
  exact fails_of_directory hex hnode

/-- What is not uploaded is missing, or it cannot be looked up or read. -/
theorem missing_or_fails (hne : names ≠ []) (hfiles : files ≠ [])
    (hno : ∀ file ∈ files, file.key ≠ Resource.relativeKey names) : f.Missing r files names ∨
      Fails v (f.pathOf (r.stem ++ "/" ++ Resource.relativeKey names)) := by
  have hroot : InTree files [] := by
    obtain ⟨file, hf⟩ := List.exists_mem_of_ne_nil files hfiles
    obtain ⟨names, -, -, -, hkey, -⟩ := h.stored_of_mem hf
    exact ⟨file, hf, names, hkey⟩
  by_cases hfits : (f.pathOf (r.stem ++ "/" ++ Resource.relativeKey names)).Fits
  · obtain ⟨file, hf, more, hkey⟩ | ⟨before, n, after, rfl, ⟨file, hf, more, hkey⟩, hnew⟩ :=
      inTree_or_leave hroot names
    · refine .inr (h.fails_folder ⟨file, hf, more, ?_, hkey⟩ hne hfits)
      rintro rfl
      exact hno file hf (by rwa [List.append_nil] at hkey)
    · rcases List.eq_nil_or_concat' more with rfl | ⟨init, m, rfl⟩
      · rw [List.append_nil] at hkey
        obtain ⟨names, -, -, hne', hkey', -⟩ := h.stored_of_mem hf
        have hbefore : before ≠ [] := by
          rintro rfl
          have hkeys := congrArg (fun key => (Path.ofString key).bytes) (hkey.symm.trans hkey')
          exact Resource.bytes_relativeKey_ne_nil hne' hkeys.symm
        exact .inr ⟨_, by simp, h.readFile_behind hf hkey hbefore hfits⟩
      · have hfolder : IsFolder files before := ⟨file, hf, _, by simp, hkey⟩
        by_cases hshort : n.shown.bytes.length ≤ maxName
        · exact .inl (.leave hfolder hnew hshort hfits)
        · exact .inr ⟨_, by simp, h.readFile_long hfolder (Nat.lt_of_not_le hshort) hfits⟩
  · exact .inr (fails_of_not_fits hfits)

end Grown

end Folder

end Depot
