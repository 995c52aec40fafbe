import Depot.Proofs.Folder.Terms

/-!
# An upload that races with a download

`upload_dir` and `download` of a folder make their calls in any order between them; each call is one
step. Both racers abide by the terms between them, call by call (`abides_uploadDir`,
`abides_download`): the upload discards the bundle and then stays in the tree, and the download,
which looks for the bundle only once, before it lists the tree, packs an archive under another name
and moves it in place of nothing.

* `Folder.Packed` is what the download knows of its archive while the upload goes on,
  `stable_packed` that the upload keeps it.
* `Folder.Listed` is what the download knows of the bundle that it moves in: it is one of the tree
  if the upload made no call since the tree was listed (`listed_make`).

Out of scope: races of more than two, and `upload_zip`.
-/

namespace Depot

open Text Volume Terms

namespace Folder

variable {f : Folder} {r : Resource} {m m' : Moment} {v v' : Volume} {x : Place} {p : Place}
  {side : Side} {P : Volume → Prop}

/-! ## The upload -/

theorem discarded_of_waits (h : (f.terms r).Waits .left m m') :
    Discarded m'.events ↔ Discarded m.events := by
  obtain ⟨late, hevents, hside, -⟩ := h.elapsed
  rw [hevents]
  exact discarded_append fun e he hleft => nomatch hleft.symm.trans (hside e he)

theorem stable_discarded : (f.terms r).Stable .left fun m => Discarded m.events :=
  fun _ _ _ hwaits => (discarded_of_waits hwaits).mpr

theorem stable_not_discarded : (f.terms r).Stable .left fun m => ¬ Discarded m.events :=
  fun _ _ _ hwaits hno hd => hno ((discarded_of_waits hwaits).mp hd)

/-- An upload discards the bundle. -/
theorem abides_discardBundle (hr : r.check = .ok ()) :
    (f.discardBundle r).Abides (f.terms r) .left (fun m => ¬ Discarded m.events)
      fun _ m => Discarded m.events := by
  have hcall : (Procedure.ofCall (.remove (f.pathOf r.bundleKey))).Abides (f.terms r) .left
      (fun m => ¬ Discarded m.events) fun _ m => Discarded m.events := by
    refine .ofCall stable_not_discarded (fun _ => stable_discarded) fun m hinv hno => ?_
    have hdiscarded : Discarded (m.after .left (.remove (f.pathOf r.bundleKey))).events :=
      ⟨_, _, List.mem_cons_self⟩
    have hsets : f.Sets r m.world.volume [r.bundleName] none
        (m.after .left (.remove (f.pathOf r.bundleKey))).world.volume := by
      rw [Moment.volume_remove, pathOf_bundleKey f hr]
      refine sets_without hr (Tallies.no_other hinv .bundle) ?_
      rw [← pathOf_bundleKey f hr]
      exact hinv.disposes hno
    refine ⟨⟨⟨hinv.obeys.sets hsets ?_, fun _ => hsets.self, fun hd => absurd hdiscarded hd⟩,
      hsets.toSteady, fun k => ?_, fun _ => hsets.self⟩, hdiscarded⟩
    · exact ⟨by simp, fun _ => by simp⟩
    · exact hsets.other _ (by simp) (Resource.bundle_ne_temporary k).symm
  refine .bind (.ofProcedure (fun _ => stable_discarded) hcall) fun _ => ?_
  exact .pure stable_discarded fun _ _ hd => hd

theorem stable_opened_tree (q : Place) :
    (f.terms r).Stable .left (On (f.Opened r (r.treeName :: q) p)) :=
  fun _ _ _ hwaits h => h.steady (ByDownload.steady hwaits.does) (ByDownload.tree hwaits.does q)

/-- A file of the tree is made or emptied. -/
theorem abides_create {names : List Name} (hr : r.check = .ok ()) (hne : names ≠ []) :
    (Procedure.ofCall (.create (f.pathOf (r.stem ++ "/" ++ Resource.relativeKey names)))).Abides
      (f.terms r) .left (fun _ => True) fun reply m => ∀ p, reply = .ok p →
        f.Opened r (r.treeName :: names.map Name.shown) p m.world.volume := by
  refine .ofCall stable_const (fun _ => .all fun p => (stable_opened_tree _).given)
    fun m hinv _ => ?_
  have hother : ∀ q, f.view r m.world.volume (r.treeName :: q) ≠ some .other := fun q =>
    Tallies.no_other hinv (.tree q)
  obtain ⟨k, hreply, hvol⟩ | ⟨p, hreply, hsets, hopened⟩ := created m .left
    (List.cons_ne_nil _ _) (hother _) fun s hs => place_of_file hr hother hne hs
  · exact ⟨admits_of_same hr hinv (by simp) (by simp) hvol,
      fun p hp => nomatch hreply.symm.trans hp⟩
  · refine ⟨admits_upload_of_sets hr hinv (by simp) hsets (by simp), fun p' hp' => ?_⟩
    obtain rfl := Except.ok.inj (hreply.symm.trans hp')
    exact hopened

/-- A file of the tree is filled, as far as its source can be read and it can be written. -/
theorem abides_copy (hr : r.check = .ok ()) (q : Place) (source : Handle) :
    (Procedure.ofCall (.copy source p)).Abides (f.terms r) .left
      (On (f.Opened r (r.treeName :: q) p)) fun _ _ => True := by
  refine .ofCall (stable_opened_tree q) (fun _ => stable_const) fun m hinv hopened => ⟨?_, trivial⟩
  have hsets := Opened.sets hopened (by simp) (m.world.volume.givenAt source).1
  rw [← copyAt_snd, ← m.volume_copy .left] at hsets
  exact admits_upload_of_sets hr hinv (by simp) hsets (by simp)

/-- What stands beside the tree is as it was. -/
def besideTree (f : Folder) (r : Resource) (v : Volume) : Rule := fun x s =>
  upkeep r x s ∧ ∀ n, n ≠ r.treeName → x = [n] → s = f.view r v x

/-- Directories are made on the way to a file of the tree. -/
theorem abides_makeDirectories {path : Path} {names : List Name} (hr : r.check = .ok ())
    (hgoes : ¬ r.GoesUp) (hup : Path.Climbs (f.leadPath r) (r.treeName :: names) path) :
    (Procedure.ofCall (.makeDirectories path)).Abides (f.terms r) .left (fun _ => True)
      fun _ _ => True := by
  refine .ofCall stable_const (fun _ => stable_const) fun m hinv _ => ⟨?_, trivial⟩
  replace hinv : f.Tallies r m := hinv
  have hbefore : f.Obeys r (besideTree f r m.world.volume) m.world.volume :=
    ⟨hinv.obeys.toGrounded, fun x hx => ⟨hinv.obeys.shown x hx, fun _ _ _ => rfl⟩⟩
  have hafter := hbefore.makeDirectories hr hup (fun x hx hpre => ?_) fun x hx hway => ?_
  · rw [← m.volume_makeDirectories .left] at hafter
    refine admits_upload hr hinv (by simp)
      ⟨hafter.toGrounded, fun x hx => (hafter.shown x hx).1⟩ ?_ ?_
    · exact (adds_makeDirectories _ path).toSteady
    · exact fun n hown hn => (hafter.shown [n] hown).2 n hn rfl
  · obtain ⟨n, q, rfl⟩ := List.exists_cons_of_ne_nil hx
    obtain ⟨rfl, -⟩ := List.cons_prefix_cons.mp hpre
    exact ⟨.tree q, fun hrule => hrule.1.1 rfl⟩
  · obtain ⟨n, q, rfl⟩ := List.exists_cons_of_ne_nil hx.ne_nil
    obtain ⟨rfl, -⟩ := List.cons_prefix_cons.mp (hway.resolve_right hgoes)
    exact ⟨⟨by simp, fun he => absurd he (r.tree_ne_bundle q)⟩,
      fun n hn he => absurd (List.cons.inj he).1.symm hn⟩

/-- The directories above a file of the tree are made. -/
theorem abides_makeParent {names : List Name} (hr : r.check = .ok ()) (hgoes : ¬ r.GoesUp)
    (hne : names ≠ []) :
    (makeParent (f.pathOf (r.stem ++ "/" ++ Resource.relativeKey names))).Abides (f.terms r) .left
      (fun _ => True) fun _ _ => True := by
  intro m hinv ha
  have hbase := (Tallies.obeys hinv).toGrounded.bytes_base_ne_nil
  obtain ⟨parent, hparent, hup⟩ := climbs_parent hr hbase hne
  have hmake : (makeDirectories parent).Abides (f.terms r) .left (fun _ => True) fun _ _ => True :=
    .ofReply (fun _ => stable_const) (abides_makeDirectories hr hgoes hup) fun _ _ _ => trivial
  rw [makeParent, hparent]
  exact hmake m hinv ha

/-- Whatever the download does, a file that is put stays in the tree. -/
theorem abides_putFile {names : List Name} (hr : r.check = .ok ()) (hgoes : ¬ r.GoesUp)
    (hne : names ≠ []) (source : Handle) :
    (putFile (f.pathOf r.stem) (Resource.relativeKey names) source).Abides (f.terms r) .left
      (fun _ => True) fun _ _ => True := by
  have hopened : ∀ p, (f.terms r).Stable .left
      (On (f.Opened r (r.treeName :: names.map Name.shown) p)) := fun p => stable_opened_tree _
  rw [putFile, ← pathOf_fileKey]
  refine .bind (abides_makeParent hr hgoes hne) fun _ => ?_
  refine .bind (.ofReply hopened (abides_create hr hne) fun p _ h => h p rfl) fun p => ?_
  exact .ofReply (fun _ => stable_const) (abides_copy hr _ source) fun _ _ _ => trivial

/-- The files of a folder have names, whatever the download does while they are listed. -/
theorem abides_sourceFiles (hr : r.check = .ok ()) (source : Path) :
    (sourceFiles source).Abides (f.terms r) .left (fun _ => True) fun files _ =>
      ∀ file ∈ files, ∃ names, names ≠ [] ∧ file.key = Resource.relativeKey names := by
  have hcheck : (checkSourceFolder source).Abides (f.terms r) .left (fun _ => True)
      fun _ => On fun v => v.stat source = .ok .directory := by
    have hstable : ∀ reply : Except IoKind FileKind, (f.terms r).Stable .left
        (On fun v => reply = .ok .directory → v.stat source = .ok .directory) :=
      fun _ => (stable_directory source).given
    have hstat : (Procedure.ofCall (.stat source)).Abides (f.terms r) .left (fun _ => True)
        fun reply => On fun v => reply = .ok .directory → v.stat source = .ok .directory :=
      abides_quiet (P := fun _ => True) (.stat source) hr trivial stable_const hstable
        fun _ _ _ he => he
    refine .concluding (fun _ => stable_directory source) hstat fun reply _ m hok h => h ?_
    split at hok
    · rfl
    all_goals exact nomatch hok
  have hcollect : (collect source).Abides (f.terms r) .left
      (On fun v => v.stat source = .ok .directory) fun files _ =>
        ∀ file ∈ files, ∃ names, names ≠ [] ∧ file.key = Resource.relativeKey names := by
    have hwalk : (Procedure.ofCall (.walk source)).Abides (f.terms r) .left
        (On fun v => v.stat source = .ok .directory) fun reply => On fun _ =>
          ∀ found, reply = .ok found → ∀ fd ∈ found, fd.names ≠ [] := by
      refine abides_quiet (.walk source) hr trivial (stable_directory source)
        (fun _ => stable_const) fun m _ hdir found hfound fd hfd => ?_
      obtain ⟨p, node, hn, hnode⟩ := Volume.exists_of_stat hdir
      exact Volume.names_ne_nil_of_walk hnode hn hfound fd hfd
    have hkeys : ((Procedure.ofCall (.walk source)).bind fun found =>
        .done (found.map fun fs => fs.map SourceFile.ofFound)).Abides (f.terms r) .left
        (On fun v => v.stat source = .ok .directory) fun reply _ => ∀ files, reply = .ok files →
          ∀ file ∈ files, ∃ names, names ≠ [] ∧ file.key = Resource.relativeKey names := by
      refine .bind hwalk fun reply => .done stable_const ?_
      intro m _ h files hfiles file hfile
      cases reply with
      | error k => exact nomatch hfiles
      | ok found =>
        obtain rfl := Except.ok.inj hfiles
        obtain ⟨fd, hfd, rfl⟩ := List.mem_map.mp hfile
        exact ⟨fd.names, h found rfl fd hfd, rfl⟩
    exact .ofReply (fun _ => stable_const) hkeys fun files _ h => h files rfl
  refine .bind hcheck fun _ => .bind hcollect fun files => ?_
  split
  · exact .throw
  · exact .pure stable_const fun _ _ h => h

/-- Whatever the download does, files that are handed over stay in the tree. -/
theorem abides_handOver {files : List SourceFile} (hr : r.check = .ok ()) (hgoes : ¬ r.GoesUp)
    (hfiles : ∀ file ∈ files, ∃ names, names ≠ [] ∧ file.key = Resource.relativeKey names) :
    (handOver (putFile (f.pathOf r.stem)) files).Abides (f.terms r) .left (fun _ => True)
      fun _ _ => True := by
  induction files with
  | nil => exact .pure stable_const fun _ _ _ => trivial
  | cons file rest ih =>
    obtain ⟨⟨names, hne, hkey⟩, hrest⟩ := List.forall_mem_cons.mp hfiles
    have hopen : (Procedure.ofCall (.openFile file.path)).Abides (f.terms r) .left
        (fun _ => True) fun _ _ => True :=
      abides_look (P := fun _ => True) (.openFile file.path) hr trivial stable_const
    rw [handOver, hkey]
    refine .bind (.ofReply (fun _ => stable_const) hopen fun _ _ _ => trivial) fun h => ?_
    exact .bind (abides_putFile hr hgoes hne h) fun _ => ih hrest

/-- **Whatever the download does, an upload of files discards the bundle and then stays in the
tree.** -/
theorem abides_uploadDir (hr : r.check = .ok ()) (hgoes : ¬ r.GoesUp) (source : Path) :
    (f.uploadDir r source).Abides (f.terms r) .left (fun m => ¬ Discarded m.events)
      fun _ m => Discarded m.events := by
  have hfiles : (sourceFiles source >>= handOver (putFile (f.pathOf r.stem))).Abides (f.terms r)
      .left (fun _ => True) fun _ _ => True :=
    .bind (abides_sourceFiles hr source) fun files m hinv hfiles =>
      abides_handOver hr hgoes hfiles m hinv trivial
  rw [uploadDir, uploadEach_eq]
  refine .bind (.check stable_not_discarded fun _ _ _ h => h) fun _ => ?_
  refine .bind (abides_discardBundle hr) fun _ => .frame ?_ hfiles
  rintro m m' ⟨late, hlate⟩ hd
  exact hlate ▸ hd.append late

/-! ## The download -/

/-- There is no bundle. -/
def Free (f : Folder) (r : Resource) (v : Volume) : Prop :=
  f.view r v [r.bundleName] = none

theorem stable_free : (f.terms r).Stable .right (On (f.Free r)) :=
  fun _ _ _ hwaits h => ByUpload.missing hwaits.does h

theorem stable_opened_temporary (k : Nat) (p : Place) : (f.terms r).Stable .right
    (On fun v => f.Opened r [r.temporaryName k] p v ∧ f.Free r v) :=
  fun _ _ _ hwaits h => ⟨h.1.steady (ByUpload.steady hwaits.does)
    (ByUpload.temporary hwaits.does k), ByUpload.missing hwaits.does h.2⟩

/-- The archive that was written last stands beside the bundle, which is missing. -/
structure Packed (f : Folder) (r : Resource) (k : Nat) (m : Moment) : Prop where
  free : f.Free r m.world.volume
  archive : ∃ content, written? m.events = some content ∧
    f.view r m.world.volume [r.temporaryName k] = some (.file content)

theorem stable_packed (k : Nat) : (f.terms r).Stable .right (f.Packed r k) := by
  rintro m m' - hwaits ⟨hfree, content, hwritten, hview⟩
  obtain ⟨late, hevents, hside, -⟩ := hwaits.elapsed
  refine ⟨ByUpload.missing hwaits.does hfree, content, ?_,
    (ByUpload.temporary hwaits.does k).trans hview⟩
  rw [hevents, written?_append hside, hwritten]

theorem stable_unmoved : (f.terms r).Stable .right fun m => Unmoved m.events := by
  intro m m' _ hwaits h
  obtain ⟨late, hevents, hside, -⟩ := hwaits.elapsed
  rw [hevents]
  exact h.append fun e he hright => nomatch hright.symm.trans (hside e he)

/-- There is a tree and no bundle. -/
structure Ready (f : Folder) (r : Resource) (v : Volume) : Prop where
  free : f.Free r v
  tree : v.stat (f.pathOf r.stem) = .ok .directory

theorem stable_ready : (f.terms r).Stable .right (On (f.Ready r)) :=
  fun m m' hinv hwaits h =>
    ⟨stable_free m m' hinv hwaits h.free, stable_directory _ m m' hinv hwaits h.tree⟩

theorem abides_hasKey (hr : r.check = .ok ()) : (f.hasKey r.bundleKey).Abides (f.terms r) .right
    (fun m => Unmoved m.events) fun found m =>
      Unmoved m.events ∧ (found = false → f.Free r m.world.volume) := by
  have hstable : ∀ b, (f.terms r).Stable .right fun m =>
      Unmoved m.events ∧ (b → f.Free r m.world.volume) := fun _ =>
    stable_unmoved.and stable_free.given
  have hstat : (Procedure.ofCall (.stat (f.pathOf r.bundleKey))).Abides (f.terms r) .right
      (fun m => Unmoved m.events) fun reply m =>
        Unmoved m.events ∧ (reply = .error .notFound → f.Free r m.world.volume) := by
    refine .ofCall stable_unmoved (fun _ => hstable _) fun m hinv hunmoved => ?_
    have hvol := m.volume_after_quiet .right (c := .stat (f.pathOf r.bundleKey)) trivial
    refine ⟨admits_of_same hr hinv (by simp) (by simp) hvol,
      Unmoved.append hunmoved (List.forall_mem_singleton.mpr (by simp)), fun he => ?_⟩
    rw [hvol]
    refine view_of_stat_missing (Tallies.no_other hinv .bundle) ?_
    rw [← pathOf_bundleKey f hr]
    exact he
  refine .concluding (fun _ => hstable _) hstat fun reply found m hok h => ⟨h.1, fun hno => h.2 ?_⟩
  subst hno
  split at hok
  · exact nomatch hok
  · rfl
  · exact nomatch hok

theorem abides_checkTree (hr : r.check = .ok ()) : (f.checkTree r.stem).Abides (f.terms r) .right
    (On (f.Free r)) fun _ => On (f.Ready r) := by
  have hstable : ∀ b, (f.terms r).Stable .right
      (On fun v => f.Free r v ∧ (b → v.stat (f.pathOf r.stem) = .ok .directory)) :=
    fun _ => stable_free.and (stable_directory _).given
  have hstat : (Procedure.ofCall (.stat (f.pathOf r.stem))).Abides (f.terms r) .right
      (On (f.Free r)) fun reply => On fun v =>
        f.Free r v ∧ (reply = .ok .directory → v.stat (f.pathOf r.stem) = .ok .directory) :=
    abides_quiet (.stat _) hr trivial stable_free (fun _ => hstable _) fun _ _ h => ⟨h, id⟩
  refine .concluding (fun _ => stable_ready) hstat fun reply _ m hok h => ⟨h.1, h.2 ?_⟩
  split at hok
  · rfl
  all_goals exact nomatch hok

theorem abides_collect {P : Volume → Prop} (hr : r.check = .ok ())
    (hP : (f.terms r).Stable .right (On P)) (source : Path) :
    (collect source).Abides (f.terms r) .right (On P) fun _ => On P := by
  have hwalk : ((Procedure.ofCall (.walk source)).bind fun found =>
      .done (found.map fun fs => fs.map SourceFile.ofFound)).Abides (f.terms r) .right (On P)
      fun _ => On P :=
    .bind (abides_look (.walk source) hr trivial hP) fun _ => .done hP fun _ _ h => h
  exact .ofReply (fun _ => hP) hwalk fun _ _ h => h

theorem abides_members {P : Volume → Prop} (hr : r.check = .ok ())
    (hP : (f.terms r).Stable .right (On P)) (taken : List (Member Content))
    (files : List SourceFile) :
    (Bundle.members taken files).Abides (f.terms r) .right (On P) fun _ => On P := by
  induction files generalizing taken with
  | nil => exact .pure hP fun _ _ h => h
  | cons file rest ih =>
    rw [Bundle.members]
    have hopen := abides_look (.openFile file.path) hr trivial hP
    refine .bind (.ofReply (fun _ => hP) hopen fun _ _ h => h) fun p => ?_
    have hmode := abides_look (.mode p) hr trivial hP
    refine .bind (.ofProcedure (fun _ => hP) hmode) fun mode => ?_
    split
    · exact .throw
    · have hread := abides_look (.read p) hr trivial hP
      exact .bind (.ofReply (fun _ => hP) hread fun _ _ h => h) fun content => ih _

/-- The path beside the bundle is one of an entry. -/
theorem abides_nonce (hr : r.check = .ok ()) :
    (Procedure.ofCall .nonce).Abides (f.terms r) .right (On (f.Free r)) fun nonce => On fun v =>
      (∃ k, (f.pathOf r.bundleKey).beside nonce
        = (f.leadPath r).join ⟨(r.temporaryName k).bytes⟩) ∧ f.Free r v :=
  abides_quiet .nonce hr trivial stable_free
    (fun _ => stable_const.and stable_free)
    fun m _ h => ⟨⟨m.world.nonces, beside_bundle f hr (World.slash_not_mem_nonceDigits _)⟩, h⟩

section Temporary

variable (k : Nat) (hr : r.check = .ok ())
include hr

/-- An archive is made under a name beside the bundle. -/
theorem abides_createArchive :
    (Procedure.ofCall (.create ((f.leadPath r).join ⟨(r.temporaryName k).bytes⟩))).Abides
      (f.terms r) .right (On (f.Free r)) fun reply m => ∀ p, reply = .ok p →
        f.Opened r [r.temporaryName k] p m.world.volume ∧ f.Free r m.world.volume := by
  refine .ofCall stable_free (fun _ => .all fun p => (stable_opened_temporary k p).given)
    fun m hinv hfree => ?_
  have hother := Tallies.no_other hinv (.temporary k)
  obtain ⟨e, hreply, hvol⟩ | ⟨p, hreply, hsets, hopened⟩ := created m .right
    (List.cons_ne_nil _ _) hother fun s hs => by
      obtain ⟨lead, hl, rfl⟩ := spot_of_entry hr hother hs
      exact ⟨lead, hl, rfl⟩
  · exact ⟨admits_of_same hr hinv (by simp) (by simp) hvol,
      fun p hp => nomatch hreply.symm.trans hp⟩
  · refine ⟨admits_download_of_sets hr hinv (by simp) hsets (by simp), fun p' hp' => ?_⟩
    obtain rfl := Except.ok.inj (hreply.symm.trans hp')
    exact ⟨hopened, (hsets.other _ (by simp) (Resource.bundle_ne_temporary k)).trans hfree⟩

/-- The archive is written. -/
theorem abides_writeArchive (p : Place) (content : Content) :
    (Procedure.ofCall (.write p content)).Abides (f.terms r) .right
      (On fun v => f.Opened r [r.temporaryName k] p v ∧ f.Free r v)
      fun reply m => reply = .ok () → f.Packed r k m := by
  refine .ofCall (stable_opened_temporary k p) (fun _ => (stable_packed k).given)
    fun m hinv ⟨hopened, hfree⟩ => ?_
  have hsets := hopened.sets (by simp) content
  rw [← m.volume_write .right] at hsets
  refine ⟨admits_download_of_sets hr hinv (by simp) hsets (by simp), fun hreply => ?_⟩
  have hbundle := hsets.other _ (by simp) (Resource.bundle_ne_temporary k)
  refine ⟨hbundle.trans hfree, content, rfl, ?_⟩
  rw [hsets.self, arriving_of_writeAt hreply]

/-- What is left of an archive that could not be made is removed. -/
theorem abides_removeArchive :
    (Procedure.ofCall (.remove ((f.leadPath r).join ⟨(r.temporaryName k).bytes⟩))).Abides
      (f.terms r) .right (fun _ => True) fun _ _ => True := by
  refine .ofCall stable_const (fun _ => stable_const) fun m hinv _ => ⟨?_, trivial⟩
  have hother := Tallies.no_other hinv (.temporary k)
  have hvol := m.volume_remove .right ((f.leadPath r).join ⟨(r.temporaryName k).bytes⟩)
  unfold Volume.without at hvol
  split at hvol
  · next v' hremove =>
    have hsets := sets_remove hr hother hremove
    rw [← hvol] at hsets
    exact admits_download_of_sets hr hinv (by simp) hsets (by simp)
  · exact admits_of_same hr hinv (by simp) (by simp) hvol

/-- The archive is moved in place of nothing. -/
theorem abides_moveArchive :
    (Procedure.ofCall (.rename ((f.leadPath r).join ⟨(r.temporaryName k).bytes⟩)
      (f.pathOf r.bundleKey))).Abides (f.terms r) .right (f.Packed r k) fun _ _ => True := by
  refine .ofCall (stable_packed k) (fun _ => stable_const) fun m hinv hpacked => ⟨?_, trivial⟩
  replace hinv : f.Tallies r m := hinv
  obtain ⟨hfree, content, hwritten, hview⟩ := hpacked
  obtain ⟨e, hreply, hvol⟩ | ⟨hreply, hmove⟩ := m.rename_cases .right
    ((f.leadPath r).join ⟨(r.temporaryName k).bytes⟩) (f.pathOf r.bundleKey)
  · exact admits_unmoved hr hinv (movedIn?_of_unmoved hreply) hvol
  · refine admits_move hr hinv hview hfree ?_ ((movedIn?_of_moved hreply).trans hwritten)
    rw [← pathOf_bundleKey f hr]
    exact hmove

theorem abides_removing {α : Type} {A : Moment → Prop} {Q : α → Moment → Prop} {x : Action α}
    (hQ : ∀ a, (f.terms r).Stable .right (Q a)) (hx : x.Abides (f.terms r) .right A Q) :
    (Bundle.removing ((f.leadPath r).join ⟨(r.temporaryName k).bytes⟩) x).Abides (f.terms r) .right
      A Q :=
  .tryCatch hQ hx fun _ =>
    .bind (.ofProcedure (fun _ => stable_const) (abides_removeArchive k hr)) fun _ => .throw

/-- The archive is packed under a name beside the bundle. -/
theorem abides_pack (files : List SourceFile) :
    (Bundle.writeArchive files ((f.leadPath r).join ⟨(r.temporaryName k).bytes⟩)).Abides (f.terms r)
      .right (On (f.Free r)) fun _ => f.Packed r k := by
  refine .bind (.ofReply (fun p => stable_opened_temporary k p) (abides_createArchive k hr)
    fun p _ h => h p rfl) fun p => ?_
  refine .bind (abides_members hr (stable_opened_temporary k p) [] files) fun ms => ?_
  exact .ofReply (fun _ => stable_packed k) (abides_writeArchive k hr p _) fun _ _ h => h rfl

end Temporary

/-- Whatever the upload does, a bundle is made under another name and then moved. -/
theorem abides_make (hr : r.check = .ok ()) :
    (Bundle.make (f.pathOf r.stem) (f.pathOf r.bundleKey)).Abides (f.terms r) .right
      (On (f.Free r)) fun _ _ => True := by
  rw [Bundle.make]
  refine .bind (abides_collect hr stable_free _) fun files => ?_
  refine .bind (.ofProcedure (fun _ => stable_const.and stable_free) (abides_nonce hr))
    fun nonce => ?_
  rintro m hinv ⟨⟨k, hk⟩, hfree⟩
  have hmove : (Action.trying (.moveBundle (f.pathOf r.bundleKey)) (.ofCall (.rename
      ((f.leadPath r).join ⟨(r.temporaryName k).bytes⟩) (f.pathOf r.bundleKey)))).Abides (f.terms r)
      .right (f.Packed r k) fun _ _ => True :=
    .ofReply (fun _ => stable_const) (abides_moveArchive k hr) fun _ _ _ => trivial
  dsimp only
  rw [hk]
  refine Action.Abides.bind
    (abides_removing k hr (fun _ => stable_packed k) (abides_pack k hr files)) (fun _ => ?_) m hinv
    hfree
  exact .bind (abides_removing k hr (fun _ => stable_const) hmove) fun _ =>
    .pure stable_const fun _ _ _ => trivial

/-- A folder keeps what the bundle is made of, if there is one. -/
theorem Tallies.keeps (h : f.Tallies r m) (hbundle : ∀ c,
    f.view r m.world.volume [r.bundleName] = some (.file c) →
      ∃ ms, c.members? = some ms ∧ f.Archives r m.world.volume ms) :
    f.Keeps r none m.world.volume :=
  ⟨h.obeys.toGrounded, fun _ => h.no_other, fun hdir => absurd hdir h.no_directory, nofun,
    fun _ => hbundle⟩

/-- The download has listed the tree, and the bundle is one of the tree if the upload has made no
call since then. -/
def Listed (f : Folder) (r : Resource) (m : Moment) : Prop :=
  ∃ late early reply, m.events = late ++ ⟨.right, .walk (f.pathOf r.stem), reply⟩ :: early ∧
    ((∀ e ∈ late, e.side = .right) → f.Keeps r none m.world.volume)

theorem stable_listed : (f.terms r).Stable .right (f.Listed r) := by
  rintro m m' - hwaits ⟨late, early, reply, hevents, hkeeps⟩
  obtain ⟨later, hlater, hidle⟩ := hwaits.elapsed.idle
  refine ⟨later ++ late, early, reply, ?_, fun hown => ?_⟩
  · rw [hlater, hevents, List.append_assoc]
  · rw [hidle fun e he => hown e (List.mem_append_left _ he)]
    exact hkeeps fun e he => hown e (List.mem_append_right _ he)

/-- A bundle that is made while nothing else happens is one of the tree. -/
theorem listed_make (hr : r.check = .ok ()) :
    (Bundle.make (f.pathOf r.stem) (f.pathOf r.bundleKey)).Abides (f.terms r) .right
      (On (f.Ready r)) fun _ => f.Listed r := by
  -- The first call is the walk, and what follows it is followed alone.
  obtain ⟨next, hnext⟩ : ∃ next, (Bundle.make (f.pathOf r.stem) (f.pathOf r.bundleKey)).run
      = .ask (.walk (f.pathOf r.stem)) next := ⟨_, rfl⟩
  have hmake : (Bundle.make (f.pathOf r.stem) (f.pathOf r.bundleKey)).Abides (f.terms r) .right
      (On (f.Ready r)) fun _ _ => True :=
    fun m hinv hready => abides_make hr m hinv (Ready.free hready)
  unfold Action.Abides at hmake ⊢
  rw [hnext] at hmake ⊢
  refine fun m hinv hready => (hmake.alone stable_ready m hinv hready).mono ?_
  rintro reply m' ⟨-, m₁, late, htallies, hready₁, hevents, halone⟩ count hok
  refine ⟨late, m₁.events, _, hevents, fun hown => ?_⟩
  have hkeeps : f.Keeps r none m₁.world.volume := Tallies.keeps htallies fun c hc =>
    nomatch (Ready.free hready₁).symm.trans hc
  have hmade := hkeeps.make hr (Ready.free hready₁) (Ready.tree hready₁)
    (Bundle.perform_make _ _ m₁.world)
  rw [hnext, halone hown] at hmade
  exact hmade.1

/-- **Whatever the upload does, a download leaves the tree alone and moves in what it wrote
last.** -/
theorem abides_download (hr : r.check = .ok ()) :
    (f.download r).Abides (f.terms r) .right (fun m => Unmoved m.events) fun _ m =>
      Unmoved m.events ∨ f.Listed r m := by
  rw [download]
  refine .bind (.check stable_unmoved fun _ _ _ h => h) fun _ => ?_
  refine .bind (abides_hasKey hr) fun found => ?_
  cases found with
  | true =>
    have hlink : (pure (.file (f.pathOf r.bundleKey)) : Action Link).Abides (f.terms r) .right
        (fun m => Unmoved m.events) fun _ m => Unmoved m.events ∨ f.Listed r m :=
      .pure stable_unmoved fun _ _ h => .inl h
    exact fun m hinv h => hlink m hinv h.1
  | false =>
    have hrest : (f.checkTree r.stem >>= fun _ =>
        Bundle.make (f.pathOf r.stem) (f.pathOf r.bundleKey) >>= fun _ =>
          (pure (.file (f.pathOf r.bundleKey)) : Action Link)).Abides (f.terms r) .right
        (On (f.Free r)) fun _ m => Unmoved m.events ∨ f.Listed r m :=
      .bind (abides_checkTree hr) fun _ => .bind (listed_make hr) fun _ =>
        .pure stable_listed fun _ _ h => .inr h
    exact fun m hinv h => hrest m hinv (h.2 rfl)

end Folder

end Depot
