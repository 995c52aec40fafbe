import Depot.Proofs.Bundle
import Depot.Proofs.Folder.Entry

/-!
# Bundles that a folder keeps

`Folder.Archives` says of the members of an archive that they are the files of the tree, each once,
with its content. `archives_of_collect`: what `zip_dir` reads of the tree while it writes beside it
is one.

The invariant is `Folder.Keeps f r zip`, over what the folder shows: there are files and directories
only, and the bundle is `zip` if one was uploaded, and else an archive of the tree or missing. (If
owner or kind go up, directories that are made on the way may be in its place.) Each operation
keeps it, whether it succeeds or not:

* `Keeps.uploadDir` is `upload_dir`: no bundle counts as uploaded afterwards, provided that a bundle
  that is there can be removed (`Keeps.without` is `discard_bundle`).
* `Keeps.uploadZip` is `upload_zip`: the bundle is the file that was copied, and if the request
  fails all is as it was, provided that the file can be copied (`Folder.Copyable`).
* `Keeps.make` is `zip_dir` from the tree to the bundle where there is none, step by step along
  `Bundle.Course`; `Keeps.download` is `download`, which leads to a bundle if it succeeds.

Out of scope: a copy that stops half-way, and the octets of an archive.
-/

namespace Depot

open Text Volume

namespace Folder

variable {f : Folder} {r : Resource} {v v' : Volume} {w w' : World} {x : Place}
  {files : List SourceFile} {ms : List (Member Content)} {zip : Option Content}

/-! ## Archives of the tree -/

/-- The members of an archive are the files in the tree, each once, under its relative key and with
its content. -/
def Archives (f : Folder) (r : Resource) (v : Volume) (ms : List (Member Content)) : Prop :=
  (ms.map Member.name).Nodup ∧ ∃ files : List (Place × Content),
    (ms.map fun m => (m.name, m.content)) = (files.map fun e => (Resource.relativeKey e.1, e.2)) ∧
    ∀ q c, (q, c) ∈ files ↔ f.view r v (r.treeName :: q) = some (.file c)

theorem Archives.congr (h : f.Archives r v ms)
    (hsame : ∀ q c, f.view r v' (r.treeName :: q) = some (.file c) ↔
      f.view r v (r.treeName :: q) = some (.file c)) : f.Archives r v' ms := by
  obtain ⟨hnodup, files, hfiles, hiff⟩ := h
  exact ⟨hnodup, files, hfiles, fun q c => (hiff q c).trans (hsame q c).symm⟩

/-- Every file in the tree is a member. -/
theorem Archives.name_mem (h : f.Archives r v ms) {q : Place} {c : Content}
    (hq : f.view r v (r.treeName :: q) = some (.file c)) :
    Resource.relativeKey q ∈ ms.map Member.name := by
  obtain ⟨-, files, hfiles, hiff⟩ := h
  have hnames : ms.map Member.name = files.map fun e => Resource.relativeKey e.1 := by
    simpa [List.map_map, Function.comp_def] using congrArg (List.map Prod.fst) hfiles
  rw [hnames]
  exact List.mem_map_of_mem ((hiff q c).mpr hq)

/-- Files that were found, with what was read of them. -/
theorem exists_contents {found : List Found} {P : Place → Content → Prop}
    (h : List.Forall₂ (Bundle.Reads v) (found.map .ofFound) ms)
    (hread : ∀ fd ∈ found, ∀ c, v.readFile fd.path = .ok c → P fd.names c) :
    ∃ files : List (Place × Content), files.map Prod.fst = found.map Found.names ∧
      (ms.map fun m => (m.name, m.content)) = (files.map fun e => (Resource.relativeKey e.1, e.2)) ∧
      ∀ q c, (q, c) ∈ files → P q c := by
  induction found generalizing ms with
  | nil =>
    cases h
    exact ⟨[], rfl, rfl, fun _ _ h => absurd h List.not_mem_nil⟩
  | cons fd found ih =>
    rw [List.map_cons] at h
    cases h with | @cons _ m _ ms hm hrest
    obtain ⟨hname, hcontent⟩ := hm
    obtain ⟨files, hnames, hms, hP⟩ := ih hrest fun fd hfd => hread fd (List.mem_cons_of_mem _ hfd)
    refine ⟨(fd.names, m.content) :: files, congrArg _ hnames, ?_, fun q c hq => ?_⟩
    · rw [List.map_cons, hms, hname]
      rfl
    · rcases List.mem_cons.mp hq with he | hq
      · obtain ⟨rfl, rfl⟩ := Prod.mk.inj he
        exact hread fd List.mem_cons_self _ hcontent
      · exact hP q c hq

/-- What is read of the files of the tree, while an entry beside it changes, is an archive of the
tree. -/
theorem archives_of_collect {n : Name} {s : Option Shape} (hr : r.check = .ok ())
    (hother : ∀ q, f.view r w.volume (r.treeName :: q) ≠ some .other)
    (hdir : w.volume.stat (f.pathOf r.stem) = .ok .directory)
    (hfiles : w.perform (collect (f.pathOf r.stem)).run = (.ok files, w))
    (hsets : f.Sets r w.volume [n] s v) (hn : n ≠ r.treeName)
    (hreads : List.Forall₂ (Bundle.Reads v) files ms) (hnodup : (ms.map Member.name).Nodup) :
    f.Archives r v ms := by
  obtain ⟨⟨found, hwalk, rfl⟩, -⟩ := collect_eq_ok.mp hfiles
  obtain ⟨d, node, hex, hd⟩ := exists_of_stat hdir
  have htree := at_tree hr (hother []) ⟨node, hex⟩
  -- the tree stays where it is
  obtain ⟨mode, hmode⟩ := isDirectory_iff.mp hd
  have hface : w.volume.face? d = some (.directory mode) :=
    face?_eq_some.mpr ⟨node, node?_of_existing hex, hmode⟩
  have hroot : v.Leads (f.pathOf r.stem) d :=
    Leads.steady ⟨node, hex⟩ hsets.toSteady (hsets.directory d mode hface)
  have hsame : ∀ q, f.view r v (r.treeName :: q) = f.view r w.volume (r.treeName :: q) := fun q =>
    hsets.other _ (List.cons_ne_nil _ _) fun he => hn (List.cons.inj he).1.symm
  have hother' : ∀ q, f.view r v (r.treeName :: q) ≠ some .other := fun q => hsame q ▸ hother q
  have htree' := at_tree hr (hother' []) hroot
  obtain ⟨files, hnames, hms, hfiles⟩ := exists_contents hreads
    (P := fun q c => f.view r v (r.treeName :: q) = some (.file c)) fun fd hfd c hread => by
      obtain ⟨q, mode, hq, hface, -⟩ := readFile_eq_ok.mp hread
      obtain ⟨more, hnames, hpath⟩ := behind_of_walk hwalk fd hfd
      rw [hpath] at hq
      obtain rfl := place_of_leads_children hroot
        (fun q target _ => htree'.no_link hother' q target) hq
      rw [hnames, List.nil_append, htree'.behind, hface]
      rfl
  refine ⟨hnodup, files, hms, fun q c => ⟨hfiles q c, fun hq => ?_⟩⟩
  obtain ⟨mode, hget⟩ : ∃ mode, node.get? q = some (.file mode c) := by
    rw [hsame, htree.behind] at hq
    obtain ⟨fc, hfc, hshape⟩ := Option.map_eq_some_iff.mp hq
    obtain ⟨mode, rfl⟩ := Face.shape_eq_file.mp hshape
    exact ⟨mode, get?_of_face? hex hfc⟩
  have hfound := exists_found_of_get? (walkNode_of_walk hex hwalk) hget
  have hmem : q ∈ files.map Prod.fst := hnames ▸ List.mem_map_of_mem hfound
  obtain ⟨⟨q', c'⟩, he, rfl⟩ := List.mem_map.mp hmem
  obtain rfl := Shape.file.inj (Option.some.inj ((hfiles _ _ he).symm.trans hq))
  exact he

/-! ## What a folder keeps -/

/-- A volume in which what a folder keeps of a resource are files and directories; the bundle is the
one that was uploaded, if there is such a one, and otherwise it is an archive of the tree or
missing, or a directory if the resource goes up. -/
structure Keeps (f : Folder) (r : Resource) (zip : Option Content) (v : Volume) : Prop
    extends Grounded f r v where
  other : ∀ x, r.Own x → f.view r v x ≠ some .other
  bundle : f.view r v [r.bundleName] = some .directory → r.GoesUp
  uploaded : ∀ c, zip = some c → f.view r v [r.bundleName] = some (.file c)
  made : zip = none → ∀ c, f.view r v [r.bundleName] = some (.file c) →
    ∃ ms, c.members? = some ms ∧ f.Archives r v ms

namespace Keeps

/-- Only the files in the tree and at the bundle count. -/
theorem of_same (h : f.Keeps r zip v) (hground : f.Grounded r v')
    (htree : ∀ q c, f.view r v' (r.treeName :: q) = some (.file c) ↔
      f.view r v (r.treeName :: q) = some (.file c))
    (hbundle : ∀ c, f.view r v' [r.bundleName] = some (.file c) ↔
      f.view r v [r.bundleName] = some (.file c))
    (hdirectory : f.view r v' [r.bundleName] = some .directory → r.GoesUp)
    (hother : ∀ x, r.Own x → f.view r v' x ≠ some .other) : f.Keeps r zip v' := by
  refine ⟨hground, hother, hdirectory, fun c hc => (hbundle c).mpr (h.uploaded c hc),
    fun hzip c hc => ?_⟩
  obtain ⟨ms, hms, harchives⟩ := h.made hzip c ((hbundle c).mp hc)
  exact ⟨ms, hms, harchives.congr htree⟩

theorem congr (h : f.Keeps r zip v) (hground : f.Grounded r v')
    (hsame : ∀ x, r.Own x → f.view r v' x = f.view r v x) : f.Keeps r zip v' :=
  h.of_same hground (fun q c => by rw [hsame _ (.tree q)]) (fun c => by rw [hsame _ .bundle])
    (fun hdir => h.bundle ((hsame _ .bundle).symm.trans hdir))
    fun x hx he => h.other x hx ((hsame x hx).symm.trans he)

theorem getFile (path : String) (w : World) : (w.perform (f.getFile r path).run).2 = w := by
  have hmoves : (f.getFile r path).Moves Eq := by
    refine .bind (.check _) fun _ => .bind (.check _) fun key => ?_
    exact .bind (.ofReply (.call fun _ => rfl)) fun file => .ofReply (.call fun _ => rfl)
  exact (hmoves w).symm

/-! ### Uploads of files -/

/-- What an upload of files may leave: no links, and no bundle, or a directory in its place if the
resource goes up. -/
def remains (r : Resource) : Rule := fun x s =>
  s ≠ some .other ∧ (x = [r.bundleName] → s = none ∨ s = some .directory ∧ r.GoesUp)

theorem admits_remains (names : List Name) : Admits r (remains r) names := by
  refine ⟨fun x hx hway => ⟨by simp, ?_⟩, fun c => ⟨by simp, fun he => ?_⟩⟩
  · rintro rfl
    obtain hpre | hup := hway
    · exact absurd (List.cons_prefix_cons.mp hpre).1.symm r.treeName_ne_bundleName
    · exact .inr ⟨rfl, hup⟩
  · exact absurd he (r.tree_ne_bundle _)

/-- A bundle that can be discarded is. -/
theorem without (hr : r.check = .ok ()) (h : f.Keeps r zip v)
    (hclean : ∀ c, f.view r v [r.bundleName] = some (.file c) →
      ∃ v', v.remove (f.pathOf r.bundleKey) = .ok v') :
    f.Obeys r (remains r) (v.without (f.pathOf r.bundleKey)) := by
  unfold Volume.without
  split
  · next v' hremove =>
    rw [pathOf_bundleKey f hr] at hremove
    have hsets := sets_remove hr (h.other _ .bundle) hremove
    refine ⟨h.toGrounded.steady hsets.toSteady hsets.apparent, fun x hx => ?_⟩
    by_cases he : x = [r.bundleName]
    · rw [he, hsets.self]
      exact ⟨by simp, fun _ => .inl rfl⟩
    · rw [hsets.other x hx.ne_nil he]
      exact ⟨h.other x hx, fun he' => absurd he' he⟩
  · next k hk =>
    refine ⟨h.toGrounded, fun x hx => ⟨h.other x hx, ?_⟩⟩
    rintro rfl
    cases hview : f.view r v [r.bundleName] with
    | none => exact .inl rfl
    | some s =>
      cases s with
      | file c =>
        obtain ⟨v', hremove⟩ := hclean c hview
        exact absurd (hk.symm.trans hremove) (by simp)
      | directory => exact .inr ⟨rfl, h.bundle hview⟩
      | other => exact absurd hview (h.other _ .bundle)

/-- After an upload of files there is no bundle, if it could be discarded. -/
theorem uploadDir (hr : r.check = .ok ()) (h : f.Keeps r zip w.volume)
    (hclean : ∀ c, f.view r w.volume [r.bundleName] = some (.file c) →
      ∃ v', w.volume.remove (f.pathOf r.bundleKey) = .ok v') (source : Path) :
    f.Keeps r none (w.perform (f.uploadDir r source).run).2.volume := by
  have hobeys : f.Obeys r (remains r) (w.perform (f.uploadDir r source).run).2.volume := by
    refine Obeys.uploadDir hr (h.without hr hclean) (fun q hrule => hrule.1 rfl) fun file hf => ?_
    obtain ⟨names, hne, hkey⟩ := exists_names_of_mem_filesIn hf
    exact ⟨names, hne, hkey, admits_remains names⟩
  have hbundle := (hobeys.shown [r.bundleName] .bundle).2 rfl
  refine ⟨hobeys.toGrounded, fun x hx => (hobeys.shown x hx).1, fun hdir => ?_, by simp,
    fun _ c hc => ?_⟩
  · obtain hnone | ⟨-, hup⟩ := hbundle
    · exact absurd (hnone.symm.trans hdir) (by simp)
    · exact hup
  · obtain hnone | ⟨hdir, -⟩ := hbundle
    · exact absurd (hnone.symm.trans hc) (by simp)
    · exact absurd (hdir.symm.trans hc) (by simp)

/-! ### Uploads of a bundle -/

/-- The rule that all is as it is shown, but for new directories if the resource goes up. -/
def opened (f : Folder) (r : Resource) (v : Volume) : Rule := fun x s =>
  s = f.view r v x ∨ s = some .directory ∧ r.GoesUp

/-- After the parent of the bundle is made, or not, all files are as they were. -/
theorem makeParent (hr : r.check = .ok ()) (h : f.Keeps r zip w.volume) :
    let w₁ := (w.perform (makeParent (f.pathOf r.bundleKey)).run).2
    Adds w.volume w₁.volume ∧
      (∀ x, r.Own x → ∀ c, f.view r w₁.volume x = some (.file c) ↔
        f.view r w.volume x = some (.file c)) ∧ f.Keeps r zip w₁.volume := by
  intro w₁
  have hclimbs : Path.Climbs (f.leadPath r) ([] ++ [r.bundleName]) (f.pathOf r.bundleKey) :=
    pathOf_bundleKey f hr ▸ climbs_entry hr h.bytes_base_ne_nil r.bundleName
  obtain ⟨parent, hparent, -, hup⟩ := hclimbs.parent
  have hvolume : w₁.volume = (w.volume.makeDirectories parent).2 := volume_makeParent w hparent
  have hbefore : f.Obeys r (opened f r w.volume) w.volume := ⟨h.toGrounded, fun _ _ => .inl rfl⟩
  have hobeys := hbefore.makeDirectories hr hup
    (fun x hne hx => absurd (List.prefix_nil.mp hx) hne)
    (fun x hx hway => .inr ⟨rfl, hway.resolve_left fun hpre => hx.ne_nil (List.prefix_nil.mp hpre)⟩)
  have hadds : Adds w.volume w₁.volume := hvolume ▸ adds_makeDirectories _ _
  rw [← hvolume] at hobeys
  have hfiles : ∀ x, r.Own x → ∀ c, f.view r w₁.volume x = some (.file c) ↔
      f.view r w.volume x = some (.file c) := fun x hx c => by
    refine ⟨fun hc => ?_, view_adds hadds⟩
    obtain hsame | ⟨hdir, -⟩ := hobeys.shown x hx
    · exact hsame.symm.trans hc
    · exact absurd (hdir.symm.trans hc) (by simp)
  refine ⟨hadds, hfiles, h.of_same hobeys.toGrounded (fun q => hfiles _ (.tree q))
    (hfiles _ .bundle) (fun hdir => ?_) fun x hx he => ?_⟩
  · obtain hsame | ⟨-, hgoes⟩ := hobeys.shown _ .bundle
    · exact h.bundle (hsame.symm.trans hdir)
    · exact hgoes
  · obtain hsame | ⟨hdir, -⟩ := hobeys.shown x hx
    · exact h.other x hx (hsame.symm.trans he)
    · exact absurd (hdir.symm.trans he) (by simp)

end Keeps

/-- A file can be copied to the bundle: it can be read to its end and written, and it is not the
bundle. -/
def Copyable (f : Folder) (r : Resource) (v : Volume) (path : Path) : Prop :=
  ∀ p, v.Leads path p →
    (∃ c, v.readAt p = .ok c ∧ v.hasRoom c = true) ∧ ¬ f.At r v [r.bundleName] p

/-- What is a file can be copied after directories are made as before. -/
theorem Copyable.adds {path : Path} (h : f.Copyable r v path) (hadds : Adds v v')
    (hlargest : v'.largest = v.largest) (hfile : v.stat path = .ok .file)
    (hbundle : ∀ c, f.view r v' [r.bundleName] = some (.file c) →
      f.view r v [r.bundleName] = some (.file c)) : f.Copyable r v' path := by
  intro q hq
  obtain ⟨p, hp⟩ := leads_of_stat hfile
  obtain ⟨⟨c, hread, hroom⟩, hapart⟩ := h p hp
  obtain rfl := (hadds.leads hp id).inj hq
  obtain ⟨mode, hface⟩ := readAt_eq_ok.mp hread
  have hface' := hadds.kept _ id _ hface
  refine ⟨⟨c, readAt_eq_ok.mpr ⟨mode, hface'⟩, (hasRoom_congr hlargest c).trans hroom⟩, ?_⟩
  rintro ⟨lead, hl, rfl⟩
  have hview := hbundle c (by rw [view_of_leads hl, hface']; rfl)
  obtain ⟨lead', -, hl', -⟩ := view_eq_some.mp hview
  obtain rfl := (hadds.leads hl' id).inj hl
  exact hapart ⟨lead', hl', rfl⟩

namespace Keeps

/-- The bundle is replaced by a file. -/
theorem replace (h : f.Keeps r zip v) {c : Content}
    (hsets : f.Sets r v [r.bundleName] (some (.file c)) v') : f.Keeps r (some c) v' := by
  refine ⟨h.toGrounded.steady hsets.toSteady hsets.apparent, fun x hx => ?_, fun hdir => ?_,
    fun c' hc' => ?_, by simp⟩
  · by_cases he : x = [r.bundleName]
    · rw [he, hsets.self]
      simp
    · rw [hsets.other x hx.ne_nil he]
      exact h.other x hx
  · exact absurd (hsets.self.symm.trans hdir) (by simp)
  · rw [hsets.self, Option.some.inj hc']

/-- After a file is uploaded as the bundle it is the bundle, and if that fails all is as it was,
provided that a file can be copied. -/
theorem uploadZip (hr : r.check = .ok ()) (h : f.Keeps r zip w.volume)
    {bundle : Path} (hsource : w.volume.stat bundle = .ok .file → f.Copyable r w.volume bundle) :
    ((∃ e, (w.perform (f.uploadZip r bundle).run).1 = .error e) ∧
        f.Keeps r zip (w.perform (f.uploadZip r bundle).run).2.volume) ∨
      (w.perform (f.uploadZip r bundle).run).1 = .ok () ∧
        ∃ c, w.volume.readFile bundle = .ok c ∧
          f.Keeps r (some c) (w.perform (f.uploadZip r bundle).run).2.volume := by
  rw [Folder.uploadZip, World.perform_bind_of_ok (World.perform_checkResource hr w),
    World.perform_bind_action]
  obtain ⟨hfile, hcheck⟩ | ⟨-, hcheck⟩ := w.perform_checkBundleFile bundle <;> rw [hcheck]
  swap
  · exact .inl ⟨⟨_, rfl⟩, h⟩
  obtain ⟨hadds, hviews, h₁⟩ := h.makeParent hr
  have hlargest := largest_of_makeParent (f.pathOf r.bundleKey) w
  dsimp only
  rw [World.perform_bind_action]
  rcases hparent : w.perform (Folder.makeParent (f.pathOf r.bundleKey)).run with ⟨e | u, w₁⟩ <;>
    rw [hparent] at hadds hviews h₁ hlargest
  · exact .inl ⟨⟨e, rfl⟩, h₁⟩
  have hsource₁ := (hsource hfile).adds hadds hlargest hfile fun c => (hviews _ .bundle c).mp
  have hat : ∀ s, w₁.volume.find .create (f.pathOf r.bundleKey) = .ok s →
      f.At r w₁.volume [r.bundleName] s.place := by
    intro s hs
    rw [pathOf_bundleKey f hr] at hs
    obtain ⟨lead, hl, rfl⟩ := spot_of_entry hr (h₁.other _ .bundle) hs
    exact ⟨lead, hl, rfl⟩
  dsimp only
  rw [Action.trying, World.perform_ofReply, World.perform_ofCall, World.answer, World.left]
  obtain ⟨k, hcopy⟩ | ⟨c, v', hcopy, hread, hsets⟩ :=
    copyFile_cases (by simp) (h₁.other _ .bundle) hat hsource₁ <;> rw [hcopy]
  · exact .inl ⟨⟨_, rfl⟩, h₁⟩
  · obtain ⟨p, hp⟩ := leads_of_stat hfile
    exact .inr ⟨rfl, c, (hadds.readFile_eq_ok hp id).mp hread, h₁.replace hsets⟩

end Keeps

/-! ## Bundles that are made -/

theorem perform_hasKey (f : Folder) (key : String) (w : World) :
    w.perform (f.hasKey key).run = (match w.volume.stat (f.pathOf key) with
      | .ok _ => .ok true
      | .error .notFound => .ok false
      | .error k => .error (.ofIo key (.ofKind k)), w) := by
  rw [hasKey, World.perform_concluding, World.answer]
  rcases w.volume.stat (f.pathOf key) with k | kind
  · cases k <;> rfl
  · rfl

theorem perform_checkTree (f : Folder) (key : String) (w : World) :
    (w.volume.stat (f.pathOf key) = .ok .directory ∧
        w.perform (f.checkTree key).run = (.ok (), w)) ∨
      ∃ e, w.perform (f.checkTree key).run = (.error e, w) := by
  rw [checkTree, World.perform_concluding, World.answer]
  dsimp only
  split
  · next h => exact .inl ⟨h, rfl⟩
  · exact .inr ⟨_, rfl⟩
  · exact .inr ⟨_, rfl⟩

/-- The rule that all is as it is shown but for one entry, which is no link. -/
def aside (f : Folder) (r : Resource) (v : Volume) (n : Name) : Rule := fun x s =>
  (x ≠ [n] → s = f.view r v x) ∧ (x = [n] → s ≠ some .other)

namespace Keeps

variable {k : Nat}

/-- A name under which a bundle is made does not count. -/
theorem of_aside (h : f.Keeps r zip v) (hobeys : f.Obeys r (aside f r v (r.temporaryName k)) v') :
    f.Keeps r zip v' := by
  have hbundle := (hobeys.shown _ .bundle).1 (Resource.bundle_ne_temporary k)
  refine h.of_same hobeys.toGrounded
    (fun q c => by rw [(hobeys.shown _ (.tree q)).1 (Resource.tree_ne_temporary q k)])
    (fun c => by rw [hbundle]) (fun hdir => h.bundle (hbundle.symm.trans hdir)) fun x hx => ?_
  by_cases he : x = [r.temporaryName k]
  · exact (hobeys.shown x hx).2 he
  · rw [(hobeys.shown x hx).1 he]
    exact h.other x hx

theorem at_temporary {last : Last} {s : Spot} (hr : r.check = .ok ()) (h : f.Keeps r zip v)
    (hs : v.find last ((f.leadPath r).join ⟨(r.temporaryName k).bytes⟩) = .ok s) :
    f.At r v [r.temporaryName k] s.place := by
  obtain ⟨lead, hl, rfl⟩ := spot_of_entry hr (h.other _ (.temporary k)) hs
  exact ⟨lead, hl, rfl⟩

theorem writeArchive (hr : r.check = .ok ()) (h : f.Keeps r zip w.volume) (k : Nat)
    (files : List SourceFile) :
    f.Obeys r (aside f r w.volume (r.temporaryName k)) (w.perform (Bundle.writeArchive files
      ((f.leadPath r).join ⟨(r.temporaryName k).bytes⟩)).run).2.volume := by
  have hobeys : f.Obeys r (aside f r w.volume (r.temporaryName k)) w.volume :=
    ⟨h.toGrounded, fun x hx => ⟨fun _ => rfl, fun he => he ▸ h.other _ (.temporary k)⟩⟩
  obtain hsame | ⟨t, v₁, c, hcreate, hw⟩ := Bundle.writeArchive_cases files
    ((f.leadPath r).join ⟨(r.temporaryName k).bytes⟩) w
  · rw [hsame]
    exact hobeys
  · rw [hw]
    refine (hobeys.write (.temporary k) (fun hrule => hrule.2 rfl rfl) (fun c => ?_)
      (fun s hs => h.at_temporary hr hs) hcreate).2 c
    exact ⟨fun he => absurd rfl he, fun _ => by simp⟩

/-- An archive that is made and moved in place of nothing is the bundle. -/
theorem moved {p : Place} {v₁ v₂ : Volume} (hr : r.check = .ok ()) (h : f.Keeps r none w.volume)
    (hnone : f.view r w.volume [r.bundleName] = none)
    (hdir : w.volume.stat (f.pathOf r.stem) = .ok .directory)
    (hfiles : w.perform (collect (f.pathOf r.stem)).run = (.ok files, w))
    (hcreate : w.volume.create ((f.leadPath r).join ⟨(r.temporaryName k).bytes⟩) = .ok (p, v₁))
    (hreads : List.Forall₂ (Bundle.Reads v₁) files ms) (hnodup : (ms.map Member.name).Nodup)
    (hwrite : v₁.writeAt p (.ofMembers ms) = (.ok (), v₂))
    (hmove : v₂.rename ((f.leadPath r).join ⟨(r.temporaryName k).bytes⟩)
      ((f.leadPath r).join ⟨r.bundleName.bytes⟩) = .ok v') :
    f.Keeps r none v' ∧ ∃ p, v'.Leads ((f.leadPath r).join ⟨r.bundleName.bytes⟩) p := by
  obtain ⟨hsets₁, hat₁, mode, hface⟩ := sets_createWith (by simp) (h.other _ (.temporary k))
    (fun s hs => h.at_temporary hr hs) hcreate
  have hsets₂ := hsets₁.trans (sets_writeAt (by simp) hat₁ hface (.ofMembers ms))
  rw [arriving_of_writeAt (congrArg Prod.fst hwrite), hwrite] at hsets₂
  have hnone₂ : f.view r v₂ [r.bundleName] = none := by
    rw [hsets₂.other _ (by simp) (Resource.bundle_ne_temporary k), hnone]
  obtain ⟨v₃, hsets₃, hsets₄, hleads⟩ := sets_rename hr hsets₂.self hnone₂ hmove
  refine ⟨?_, hleads⟩
  have hsame : ∀ x, x ≠ [] → x ≠ [r.temporaryName k] → x ≠ [r.bundleName] →
      f.view r v' x = f.view r w.volume x := fun x hx ht hb => by
    rw [hsets₄.other x hx hb, hsets₃.other x hx ht, hsets₂.other x hx ht]
  refine ⟨((h.toGrounded.steady hsets₂.toSteady hsets₂.apparent).steady hsets₃.toSteady
      hsets₃.apparent).steady hsets₄.toSteady hsets₄.apparent,
    fun x hx => ?_, fun hdir => ?_, by simp, fun _ c hc => ?_⟩
  · by_cases hb : x = [r.bundleName]
    · rw [hb, hsets₄.self]
      simp
    · by_cases ht : x = [r.temporaryName k]
      · rw [hsets₄.other x hx.ne_nil hb, ht, hsets₃.self]
        simp
      · rw [hsame x hx.ne_nil ht hb]
        exact h.other x hx
  · exact absurd (hsets₄.self.symm.trans hdir) (by simp)
  · obtain rfl := Shape.file.inj (Option.some.inj (hsets₄.self.symm.trans hc))
    refine ⟨ms, Content.members?_ofMembers ms, ?_⟩
    have harchives := archives_of_collect hr (fun q => h.other _ (.tree q)) hdir hfiles hsets₁
      (Resource.temporaryName_ne_treeName k) hreads hnodup
    refine harchives.congr fun q c => ?_
    have htemporary := Resource.tree_ne_temporary (r := r) q k
    rw [hsame _ (by simp) htemporary (r.tree_ne_bundle q), hsets₁.other _ (by simp) htemporary]

/-- The making of a bundle where there is none keeps what a folder keeps, and if it succeeds there
is one. -/
theorem make (hr : r.check = .ok ()) (h : f.Keeps r none w.volume)
    (hnone : f.view r w.volume [r.bundleName] = none)
    (hdir : w.volume.stat (f.pathOf r.stem) = .ok .directory)
    {out : Except StorageError Nat × World}
    (hcourse : Bundle.Course (f.pathOf r.stem) (f.pathOf r.bundleKey) w out) :
    f.Keeps r none out.2.volume ∧
      ∀ count, out.1 = .ok count → ∃ p, out.2.volume.Leads (f.pathOf r.bundleKey) p := by
  have hbeside : (f.pathOf r.bundleKey).beside (World.nonceDigits w.nonces)
      = (f.leadPath r).join ⟨(r.temporaryName w.nonces).bytes⟩ :=
    beside_bundle f hr (World.slash_not_mem_nonceDigits w.nonces)
  have hwrote : ∀ {files x w₁}, World.perform { w with nonces := w.nonces + 1 } (Bundle.writeArchive
      files ((f.pathOf r.bundleKey).beside (World.nonceDigits w.nonces))).run = (x, w₁) →
      f.Keeps r none (w₁.volume.without
        ((f.pathOf r.bundleKey).beside (World.nonceDigits w.nonces))) := by
    intro files x w₁ hwrite
    rw [hbeside] at hwrite ⊢
    have hobeys := Keeps.writeArchive (w := { w with nonces := w.nonces + 1 }) hr h w.nonces files
    rw [hwrite] at hobeys
    refine h.of_aside (hobeys.without hr (.temporary _) (fun hrule => hrule.2 rfl rfl) ?_)
    exact ⟨fun he => absurd rfl he, fun _ => by simp⟩
  cases hcourse with
  | unlisted e => exact ⟨h, fun _ he => nomatch he⟩
  | unwritten hfiles hwrite =>
    have hkeeps := hwrote hwrite
    dsimp only
    exact ⟨hkeeps, fun _ he => nomatch he⟩
  | unmoved e hfiles hwrite =>
    have hkeeps := hwrote hwrite
    dsimp only
    exact ⟨hkeeps, fun _ he => nomatch he⟩
  | made hfiles hwrite hmove =>
    rw [hbeside] at hwrite hmove
    obtain ⟨p, v₁, ms, v₂, hcreate, hpacks, hnodup, hfill, hw⟩ :=
      Bundle.writeArchive_eq_ok hwrite
    have hreads := hpacks.imp fun _ _ hm => hm.reads
    rw [← hw, pathOf_bundleKey f hr] at hmove
    obtain ⟨hkeeps, hleads⟩ :=
      h.moved hr hnone hdir hfiles hcreate hreads hnodup hfill hmove
    rw [pathOf_bundleKey f hr]
    exact ⟨hkeeps, fun _ _ => hleads⟩

/-- What the path of the bundle leads to is a file, or a directory if the resource goes up. -/
theorem exists_bundle (hr : r.check = .ok ()) (h : f.Keeps r zip v) {p : Place}
    (hp : v.Leads (f.pathOf r.bundleKey) p) :
    (∃ mode c, v.face? p = some (.file mode c) ∧ f.view r v [r.bundleName] = some (.file c)) ∨
      r.GoesUp ∧ (∃ mode, v.face? p = some (.directory mode)) ∧
        f.view r v [r.bundleName] = some .directory := by
  rw [pathOf_bundleKey f hr] at hp
  have hview := (at_of_leads hr (h.other _ .bundle) hp).view
  obtain ⟨fc, hface⟩ := hp.exists_face
  rw [hface] at hview
  cases hshape : fc.shape with
  | file c =>
    obtain ⟨mode, rfl⟩ := Face.shape_eq_file.mp hshape
    exact .inl ⟨mode, c, hface, hview⟩
  | directory =>
    obtain ⟨mode, rfl⟩ := Face.shape_eq_directory.mp hshape
    exact .inr ⟨h.bundle hview, ⟨mode, hface⟩, hview⟩
  | other => exact absurd (hview.trans (congrArg some hshape)) (h.other _ .bundle)

/-- A request for the bundle keeps what a folder keeps, and if it succeeds there is a bundle. -/
theorem download (hr : r.check = .ok ()) (h : f.Keeps r zip w.volume) :
    f.Keeps r zip (w.perform (f.download r).run).2.volume ∧
      ∀ link, (w.perform (f.download r).run).1 = .ok link → link = .file (f.pathOf r.bundleKey) ∧
        ∃ p, (w.perform (f.download r).run).2.volume.Leads (f.pathOf r.bundleKey) p := by
  rw [Folder.download, World.perform_bind_of_ok (World.perform_checkResource hr w),
    World.perform_bind_action, perform_hasKey]
  cases hstat : w.volume.stat (f.pathOf r.bundleKey) with
  | ok kind => exact ⟨h, fun link hlink => ⟨(Except.ok.inj hlink).symm, leads_of_stat hstat⟩⟩
  | error k =>
    cases k with
    | notFound =>
      have hnone : f.view r w.volume [r.bundleName] = none := by
        rw [pathOf_bundleKey f hr] at hstat
        exact view_of_stat_missing (h.other _ .bundle) hstat
      obtain rfl : zip = none := Option.eq_none_iff_forall_ne_some.mpr fun c hc =>
        absurd (hnone.symm.trans (h.uploaded c hc)) (by simp)
      dsimp only
      rw [if_neg Bool.false_ne_true, World.perform_bind_action]
      obtain ⟨hdir, htree⟩ | ⟨e, htree⟩ := f.perform_checkTree r.stem w <;> rw [htree]
      · obtain ⟨hkeeps, hleads⟩ := h.make hr hnone hdir (Bundle.perform_make _ _ w)
        dsimp only
        rw [World.perform_bind_action]
        rcases hmake : w.perform (Bundle.make (f.pathOf r.stem) (f.pathOf r.bundleKey)).run with
          ⟨e | count, w'⟩ <;> rw [hmake] at hkeeps hleads
        · exact ⟨hkeeps, fun _ he => nomatch he⟩
        · exact ⟨hkeeps, fun link he => ⟨(Except.ok.inj he).symm, hleads count rfl⟩⟩
      · exact ⟨h, fun _ he => nomatch he⟩
    | _ => exact ⟨h, fun _ he => nomatch he⟩

end Keeps

end Folder

end Depot
