import Depot.Folder
import Depot.Proofs.Resource
import Depot.Proofs.Volume.Above

/-!
# Where a folder keeps a resource

The tree of a resource and its bundle are entries of one directory, that of the versions. The path
of a file is that of the tree with the names of the file behind it, so below a tree without links
the file is at the place of the tree with these names behind it (`place_of_find_file`). The bundle
is not in the tree (`bundle_not_in_tree`).
-/

namespace Depot

open Text

namespace Resource

/-- The key of the directory of the versions. -/
def leadKey (r : Resource) : String :=
  r.owner ++ "/" ++ r.kind ++ "/" ++ r.uuid

theorem encode_leadKey {r : Resource} (hr : r.check = .ok ()) :
    encode r.leadKey ≠ [] ∧ (encode r.leadKey).getLast? ≠ some slash := by
  have hname := Name.ordinary_encode (isName_uuid hr)
  rw [leadKey, encode_append, List.getLast?_append_of_ne_nil _ hname.1]
  exact ⟨by simp [hname.1], fun hl => hname.2.2.2 (List.mem_of_getLast? hl)⟩

theorem pieces_relativeKey_shown {names : List Name} (h : names ≠ []) :
    (Path.ofString (relativeKey names)).pieces = (names.map Name.shown).map Name.bytes := by
  rw [pieces_relativeKey h, List.map_map]
  rfl

theorem route_relativeKey {names : List Name} (h : names ≠ []) :
    (Path.ofString (relativeKey names)).route = (names.map Name.shown).map .name :=
  Path.route_names (pieces_relativeKey_shown h)

theorem bytes_relativeKey_ne_nil {names : List Name} (h : names ≠ []) :
    (Path.ofString (relativeKey names)).bytes ≠ [] := fun he =>
  Path.nil_not_mem_pieces_of_names (pieces_relativeKey_shown h) (Path.nil_mem_pieces (.inl he))

theorem isClosed_relativeKey {names : List Name} (h : names ≠ []) :
    (Path.ofString (relativeKey names)).isClosed = false := Bool.eq_false_iff.mpr fun he =>
  Path.nil_not_mem_pieces_of_names (pieces_relativeKey_shown h) (Path.nil_mem_pieces (.inr he))

end Resource

namespace Folder

variable {f : Folder} {r : Resource} {v : Volume} {names : List Name}

/-- The path of a file is that of its names below the tree. -/
theorem pathOf_fileKey (f : Folder) (r : Resource) (names : List Name) :
    f.pathOf (r.stem ++ "/" ++ Resource.relativeKey names)
      = (f.pathOf r.stem).join (.ofString (Resource.relativeKey names)) := by
  rw [pathOf, Resource.ofString_stem_append, pathOf, Path.join_join]
  · exact (Resource.encode_entryKey r r.isName_treeEntry).1
  · exact Resource.isAbsolute_relativeKey names

/-- The path of an entry is that of its name in the directory of the versions. -/
theorem pathOf_entryKey (f : Folder) (hr : r.check = .ok ()) {entry : String} (h : IsName entry) :
    f.pathOf (r.entryKey entry) = (f.pathOf r.leadKey).join ⟨(Name.ofText entry h).bytes⟩ := by
  have hrel := Path.isAbsolute_name (.ofText entry h)
  rw [pathOf, show r.entryKey entry = r.leadKey ++ "/" ++ entry from rfl,
    Path.ofString_append (Resource.encode_leadKey hr).1 (Resource.encode_leadKey hr).2 hrel]
  exact Path.join_join _ (Resource.encode_leadKey hr).1 hrel

theorem bytes_pathOf_ne_nil (f : Folder) {key : String} (h : encode key ≠ []) :
    (f.pathOf key).bytes ≠ [] := by
  unfold pathOf
  by_cases ha : (Path.ofString key).isAbsolute = true
  · rw [Path.join_of_isAbsolute _ ha]
    exact h
  · rw [Path.bytes_join _ (Bool.eq_false_iff.mpr ha)]
    exact List.append_ne_nil_of_right_ne_nil _ h

/-- The path of a file leads below the place of the tree, and to the place with its names behind it
if there are no links. -/
theorem place_of_find_file {last : Volume.Last} {s : Volume.Spot} (hne : names ≠ [])
    (h : v.find last (f.pathOf (r.stem ++ "/" ++ Resource.relativeKey names)) = .ok s) :
    ∃ d, v.Leads (f.pathOf r.stem) d ∧ ((∀ p target, v.face? (d ++ p) ≠ some (.link target)) →
      s.place = d ++ names.map Name.shown ∧ s.closed = false) := by
  rw [pathOf_fileKey] at h
  obtain ⟨d, hd, hplace⟩ := Volume.place_of_find_join
    (f.bytes_pathOf_ne_nil (r.encode_entryKey r.isName_treeEntry).1)
    (Resource.isAbsolute_relativeKey names) (Resource.route_relativeKey hne)
    (List.map_eq_nil_iff.not.mpr hne) h
  rw [Path.isClosed_join _ (Resource.bytes_relativeKey_ne_nil hne),
    Resource.isClosed_relativeKey hne] at hplace
  exact ⟨d, hd, hplace⟩

/-- The bundle stands in the directory of the versions. -/
theorem spot_of_find_bundle {s : Volume.Spot} (hr : r.check = .ok ())
    (h : v.find .keep (f.pathOf r.bundleKey) = .ok s) :
    v.Leads (f.pathOf r.leadKey) s.directory ∧
      s.name = some (.ofText r.bundleEntry r.isName_bundleEntry) ∧ s.closed = false := by
  rw [r.bundleKey_eq, pathOf_entryKey f hr r.isName_bundleEntry] at h
  obtain ⟨hd, hn, hc⟩ := Volume.spot_of_find_join
    (f.bytes_pathOf_ne_nil (Resource.encode_leadKey hr).1) (Path.isAbsolute_name _)
    (Path.route_name _) h
  refine ⟨hd, hn, hc.trans ?_⟩
  rw [Path.isClosed_join _ (Name.ordinary _).1]
  exact Bool.eq_false_iff.mpr fun he => Path.nil_not_mem_pieces_of_names
    (Path.pieces_name (.ofText r.bundleEntry r.isName_bundleEntry)) (Path.nil_mem_pieces (.inr he))

/-- The bundle is not in a tree without links. -/
theorem bundle_not_in_tree {s : Volume.Spot} {d : Place} (hr : r.check = .ok ())
    (hs : v.find .keep (f.pathOf r.bundleKey) = .ok s) (hd : v.Leads (f.pathOf r.stem) d)
    (hlinks : ∀ p target, v.face? (d ++ p) ≠ some (.link target)) {names : List Name}
    (hne : names ≠ []) : s.place ≠ d ++ names := by
  obtain ⟨hlead, hname, -⟩ := spot_of_find_bundle hr hs
  rw [r.stem_eq, pathOf_entryKey f hr r.isName_treeEntry] at hd
  obtain ⟨u, hu, hplace⟩ := Volume.leads_join
    (f.bytes_pathOf_ne_nil (Resource.encode_leadKey hr).1) (Path.isAbsolute_name _)
    (Path.route_name _) hd
  obtain rfl := hlead.inj hu
  obtain ⟨init, last, rfl⟩ := (List.eq_nil_or_concat' names).resolve_left hne
  rw [Volume.Spot.place, hname, ← List.append_assoc]
  intro he
  have hinit : s.directory = d ++ init := (List.append_inj' he rfl).1
  obtain hd | ⟨target, ht⟩ := hplace
  · have hlen := congrArg List.length hinit
    simp [hd] at hlen
  · exact hlinks _ target (List.append_assoc .. ▸ hinit ▸ ht)

/-! ## The directory of the versions -/

/-- The path of the directory of the versions. -/
def leadPath (f : Folder) (r : Resource) : Path :=
  f.pathOf r.leadKey

theorem bytes_leadPath_ne_nil (f : Folder) (hr : r.check = .ok ()) : (f.leadPath r).bytes ≠ [] :=
  f.bytes_pathOf_ne_nil (Resource.encode_leadKey hr).1

theorem pathOf_stem (f : Folder) (hr : r.check = .ok ()) :
    f.pathOf r.stem = (f.leadPath r).join ⟨r.treeName.bytes⟩ := by
  rw [r.stem_eq]
  exact pathOf_entryKey f hr r.isName_treeEntry

theorem pathOf_bundleKey (f : Folder) (hr : r.check = .ok ()) :
    f.pathOf r.bundleKey = (f.leadPath r).join ⟨r.bundleName.bytes⟩ := by
  rw [r.bundleKey_eq]
  exact pathOf_entryKey f hr r.isName_bundleEntry

theorem enters_leadPath (f : Folder) (hr : r.check = .ok ()) (n : Name) :
    (f.leadPath r).Enters n ((f.leadPath r).join ⟨n.bytes⟩) :=
  Path.enters_join (f.bytes_leadPath_ne_nil hr) (Path.isAbsolute_name n) (Path.route_name n)

theorem pieces_leadKey (hr : r.check = .ok ()) : ∃ ps,
    (Path.ofString r.leadKey).pieces
      = ps ++ [(Name.ofText r.uuid (Resource.isName_uuid hr)).bytes] := by
  have hslash := (Name.ordinary_encode (Resource.isName_uuid hr)).2.2.2
  refine ⟨splitOn slash (encode (r.owner ++ "/" ++ r.kind)), ?_⟩
  have hencode : encode r.leadKey
      = encode (r.owner ++ "/" ++ r.kind) ++ slash :: encode r.uuid := by
    rw [Resource.leadKey, encode_append, encode_append, List.append_assoc]
    rfl
  rw [Path.pieces, Path.ofString, hencode, splitOn_append_sep, splitOn_of_not_mem slash hslash]
  rfl

/-- The path of the directory of the versions is absolute just if the owner is. -/
theorem leadKey_steps (hr : r.check = .ok ()) : (Path.ofString r.leadKey).steps = r.lead ∧
    ((Path.ofString r.leadKey).isAbsolute = true ↔ r.owner.toList.head? = some '/') := by
  have howner := (Resource.check_eq_ok.mp hr).1
  have hrel := Path.isAbsolute_name (.ofText r.treeEntry r.isName_treeEntry)
  have hkey : Path.ofString (r.entryKey r.treeEntry)
      = (Path.ofString r.leadKey).join ⟨(Name.ofText r.treeEntry r.isName_treeEntry).bytes⟩ :=
    Path.ofString_append (Resource.encode_leadKey hr).1 (Resource.encode_leadKey hr).2 hrel
  have hsteps := Resource.steps_entryKey howner r.isName_treeEntry
  rw [hkey, Path.steps_join _ hrel, Path.steps_name] at hsteps
  refine ⟨List.append_cancel_right hsteps, ?_⟩
  rw [← Path.isAbsolute_join hrel, ← hkey, Resource.isAbsolute_entryKey howner]

theorem trimmed_leadPath (hr : r.check = .ok ()) (hbase : f.base.bytes ≠ []) :
    (f.leadPath r).trimmed = f.leadPath r := by
  obtain ⟨ps, hps⟩ := pieces_leadKey hr
  by_cases ha : (Path.ofString r.leadKey).isAbsolute = true
  · rw [leadPath, pathOf, Path.join_of_isAbsolute _ ha]
    exact Path.trimmed_of_pieces hps
  · exact Path.trimmed_join hbase (Bool.eq_false_iff.mpr ha) hps

/-- From the base the parents climb to the directory of the versions. -/
theorem exists_climbs_leadPath (hr : r.check = .ok ()) (hd : r.Descends)
    (hbase : f.base.bytes ≠ []) :
    ∃ names, Path.Climbs f.base.trimmed names (f.leadPath r) := by
  obtain ⟨hsteps, habs⟩ := leadKey_steps hr
  obtain ⟨names, hnames⟩ := (Resource.descends_iff hr).mp hd
  have hclimbs := Path.climbs_join hbase (Bool.eq_false_iff.mpr (mt habs.mp hd.relative))
    (hsteps.trans hnames)
  exact ⟨names, trimmed_leadPath hr hbase ▸ hclimbs⟩

/-- From the root the parents climb to the directory of the versions, if its path is absolute. -/
theorem exists_climbs_root (hr : r.check = .ok ()) (hup : ¬ r.GoesUp)
    (ha : r.owner.toList.head? = some '/') :
    ∃ names, Path.Climbs ⟨[slash]⟩ names (f.leadPath r) := by
  obtain ⟨hsteps, habs⟩ := leadKey_steps hr
  obtain ⟨names, hnames⟩ := Resource.exists_names_of_not_goesUp hr hup
  have habs := habs.mpr ha
  obtain ⟨rest, -, hpieces⟩ := Path.pieces_of_isAbsolute habs
  rw [Path.steps_eq, if_pos habs, Resource.lead, if_pos ha, hnames, hpieces] at hsteps
  have hrest : rest.filterMap Path.step? = names.map .name := List.append_cancel_left hsteps
  have hslash : ∀ b ∈ [] :: ([] ++ rest), slash ∉ b := fun b hb =>
    Path.slash_not_mem_of_mem_pieces (hpieces ▸ hb)
  have hclimbs := Path.climbs_ofPieces (a := true) (by simp) hrest hslash
  have htrimmed : (Path.ofString r.leadKey).trimmed = .ofPieces true [] (Path.trimEnd rest) := by
    rw [Path.trimmed_eq hpieces, habs]
  obtain ⟨ps, hps⟩ := pieces_leadKey hr
  rw [Path.trimmed_of_pieces hps] at htrimmed
  rw [leadPath, pathOf, Path.join_of_isAbsolute _ habs, htrimmed]
  exact ⟨names, hclimbs⟩

theorem trimmed_entry (f : Folder) (hr : r.check = .ok ()) (n : Name) :
    ((f.leadPath r).join ⟨n.bytes⟩).trimmed = (f.leadPath r).join ⟨n.bytes⟩ := by
  have hpieces : Path.pieces ⟨n.bytes⟩ = [] ++ [n.bytes] := Path.pieces_name n
  exact Path.trimmed_join (f.bytes_leadPath_ne_nil hr) (Path.isAbsolute_name n) hpieces

/-- From the directory of the versions the parents climb to an entry. -/
theorem climbs_entry (hr : r.check = .ok ()) (hbase : f.base.bytes ≠ [])
    (n : Name) : Path.Climbs (f.leadPath r) [n] ((f.leadPath r).join ⟨n.bytes⟩) := by
  have hsteps : Path.steps ⟨n.bytes⟩ = [n].map .name := Path.steps_name n
  have hclimbs := Path.climbs_join (f.bytes_leadPath_ne_nil hr) (Path.isAbsolute_name n) hsteps
  rwa [trimmed_leadPath hr hbase, trimmed_entry f hr] at hclimbs

/-- From the directory of the versions the parents climb to a file of the tree. -/
theorem climbs_file (hr : r.check = .ok ()) (hbase : f.base.bytes ≠ [])
    {names : List Name} (hne : names ≠ []) :
    Path.Climbs (f.leadPath r) (r.treeName :: names.map Name.shown)
      (f.pathOf (r.stem ++ "/" ++ Resource.relativeKey names)) := by
  have htree := climbs_entry hr hbase r.treeName
  rw [← pathOf_stem f hr] at htree
  refine htree.trans ?_
  obtain ⟨init, last, rfl⟩ := (List.eq_nil_or_concat' names).resolve_left hne
  have hpieces := Resource.pieces_relativeKey_shown hne
  have hrel := Resource.isAbsolute_relativeKey (init ++ [last])
  have hstem : (f.pathOf r.stem).bytes ≠ [] :=
    f.bytes_pathOf_ne_nil (r.encode_entryKey r.isName_treeEntry).1
  have hsteps : (Path.ofString (Resource.relativeKey (init ++ [last]))).steps
      = ((init ++ [last]).map Name.shown).map .name := by
    rw [Resource.steps_relativeKey, List.map_map]
    rfl
  have hclimbs := Path.climbs_join hstem hrel hsteps
  rw [List.map_append, List.map_append, List.map_singleton, List.map_singleton] at hpieces
  rwa [Path.trimmed_join hstem hrel hpieces, ← pathOf_fileKey, pathOf_stem f hr,
    trimmed_entry f hr, ← pathOf_stem f hr] at hclimbs

/-- From the directory of the versions the parents climb to the parent of a file of the tree. -/
theorem climbs_parent (hr : r.check = .ok ()) (hbase : f.base.bytes ≠ [])
    {names : List Name} (hne : names ≠ []) : ∃ parent,
    (f.pathOf (r.stem ++ "/" ++ Resource.relativeKey names)).parent? = some parent ∧
      Path.Climbs (f.leadPath r) (r.treeName :: (names.map Name.shown).dropLast) parent := by
  have hfile := climbs_file hr hbase hne
  have hsplit : r.treeName :: names.map Name.shown
      = r.treeName :: (names.map Name.shown).dropLast
        ++ [(names.map Name.shown).getLast (by simpa)] := by
    rw [List.cons_append, List.dropLast_append_getLast]
  rw [hsplit] at hfile
  obtain ⟨parent, hparent, -, hup⟩ := hfile.parent
  exact ⟨parent, hparent, hup⟩

end Folder

end Depot
