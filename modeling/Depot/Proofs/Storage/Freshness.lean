import Depot.Proofs.Folder.Bundles
import Depot.Proofs.Storage.Agreement
import Depot.Proofs.Storage.Requests

/-!
# Bundles that are not stale

`download` of a folder makes the bundle of a resource when it is first asked for, `upload_zip` puts
one in its place, and `upload_dir` discards it (the specification, section 10.6). Requests may fail
at any step, so what the bundle is has to be read off the history:

* `Folder.held` is the bundle that was uploaded since the last upload of files, if there is one.
* `Folder.Keeps` says that this is the bundle, or that the bundle is an archive of the tree or
  missing; every request keeps it (`keeps_turn`), and so do permissions that change in between
  (`undisturbed_relock`).
* `download_fresh`: **after any run of requests a link leads to the bundle that was uploaded, or to
  an archive with just the files of the tree.** This takes that a bundle can be removed when files
  are uploaded; `discard_bundle` passes over one that it may not remove, and then the link leads to
  what the tree was before. An owner or a kind with a part `..` may bring a directory to where the
  bundle is to be, and then the link leads to that (`not_fresh_lockedStore`).

Out of scope: uploads of a bundle that stop half-way, and what else writes to the folder.
-/

namespace Depot

open Volume

namespace Node

/-- A directory with other permissions. -/
def relock (mode : Mode) : Node → Node
  | .directory _ entries => .directory mode entries
  | node => node

theorem get?_relock (mode : Mode) (node : Node) (n : Name) (q : Place) :
    (node.relock mode).get? (n :: q) = node.get? (n :: q) := by
  cases node <;> rfl

end Node

namespace Folder

open Storage (Turn)

variable {f : Folder} {r : Resource} {w₀ w w' : World} {ts : List Turn} {zip : Option Content}

theorem exists_of_isOk {ε α : Type} {x : Except ε α} (h : x.isOk = true) : ∃ a, x = .ok a := by
  cases x with
  | ok a => exact ⟨a, rfl⟩
  | error e => exact absurd h (by simp [Except.isOk, Except.toBool])

/-! ## What the turns leave -/

/-- The bundle that was uploaded, after a turn. -/
def leave (f : Folder) (r : Resource) (t : Turn) (zip : Option Content) : Option Content :=
  match t.request with
  | .uploadDir _ => none
  | .uploadZip bundle =>
    match (t.before.perform (f.uploadZip r bundle).run).1 with
    | .ok () => (t.before.volume.readFile bundle).toOption
    | .error _ => zip
  | .getFile _ | .download => zip

/-- The bundle that was uploaded in turns, the latest first, since the last upload of files. -/
def held (f : Folder) (r : Resource) (ts : List Turn) : Option Content :=
  ts.foldr (f.leave r) none

/-- A turn that uploads files can remove the file that is the bundle, if there is one, and a turn
that uploads a bundle copies it to its end, and from elsewhere. -/
def Clean (f : Folder) (r : Resource) (t : Turn) : Prop :=
  match t.request with
  | .uploadDir _ => ∀ c, f.view r t.before.volume [r.bundleName] = some (.file c) →
      ∃ v, t.before.volume.remove (f.pathOf r.bundleKey) = .ok v
  | .uploadZip bundle =>
    t.before.volume.stat bundle = .ok .file → f.Copyable r t.before.volume bundle
  | .getFile _ | .download => True

/-- Nothing is where the folder keeps a resource. -/
structure Vacant (f : Folder) (r : Resource) (v : Volume) : Prop extends Grounded f r v where
  missing : ∀ x, r.Own x → f.view r v x = none

/-- What the folder keeps of a resource is as it was, but for permissions. -/
structure Undisturbed (f : Folder) (r : Resource) (w w' : World) : Prop
    extends Grounded f r w'.volume where
  same : ∀ x, r.Own x → f.view r w'.volume x = f.view r w.volume x

/-- Permissions of the directory of the versions that change leave what is in it. -/
theorem undisturbed_relock (lead : Place) (mode : Mode)
    (hl : w.volume.Leads (f.leadPath r) lead)
    (hl' : (w.volume.modify lead (.relock mode)).Leads (f.leadPath r) lead)
    (hground : f.Grounded r (w.volume.modify lead (.relock mode))) :
    f.Undisturbed r w { w with volume := w.volume.modify lead (.relock mode) } := by
  refine ⟨hground, fun x hx => ?_⟩
  obtain ⟨n, q, rfl⟩ := List.exists_cons_of_ne_nil hx.ne_nil
  rw [view_of_leads hl', view_of_leads hl, Volume.face?_modify_append, Volume.face?, Node.face?,
    Node.get?_append]
  congr 2
  exact congrArg _ (funext fun child => Node.get?_relock mode child n q)

theorem Vacant.keeps {v : Volume} (h : f.Vacant r v) : f.Keeps r none v := by
  have hbundle := h.missing _ .bundle
  refine ⟨h.toGrounded, fun x hx => ?_, fun hdir => ?_, by simp, fun _ c hc => ?_⟩
  · rw [h.missing x hx]
    simp
  · exact absurd (hbundle.symm.trans hdir) (by simp)
  · exact absurd (hbundle.symm.trans hc) (by simp)

/-- **Every request keeps what a folder keeps.** -/
theorem keeps_turn (hr : r.check = .ok ()) {t : Turn} (hclean : f.Clean r t)
    (h : f.Keeps r zip t.before.volume) :
    f.Keeps r (f.leave r t zip) (t.after (.folder f) r).volume := by
  obtain ⟨w, path | _ | source | bundle⟩ := t
  · have hsame : (w.perform (f.getFile r path).run).2 = w := Keeps.getFile path w
    change f.Keeps r zip (w.perform (f.getFile r path).run).2.volume
    rw [hsame]
    exact h
  · exact (h.download hr).1
  · exact h.uploadDir hr hclean source
  · change f.Keeps r (f.leave r ⟨w, .uploadZip bundle⟩ zip)
      (w.perform (f.uploadZip r bundle).run).2.volume
    unfold leave
    obtain ⟨⟨e, he⟩, hkeeps⟩ | ⟨hok, c, hread, hkeeps⟩ := h.uploadZip hr hclean
    · dsimp only
      rw [he]
      exact hkeeps
    · dsimp only
      rw [hok, hread]
      exact hkeeps

theorem keeps_of_run (hr : r.check = .ok ()) (hvacant : f.Vacant r w₀.volume)
    (hrun : Storage.Run (.folder f) r (f.Undisturbed r) w₀ ts w)
    (hclean : ∀ t ∈ ts, f.Clean r t) : f.Keeps r (f.held r ts) w.volume := by
  induction hrun with
  | start => exact hvacant.keeps
  | between _ hb ih => exact (ih hclean).congr hb.toGrounded hb.same
  | turn _ q ih =>
    have hturn := List.forall_mem_cons.mp hclean
    exact keeps_turn hr hturn.1 (ih hturn.2)

/-- **After any run of requests, a link leads to the bundle that was uploaded since the last upload
of files, or to an archive whose members are the files of the tree, if there is no such bundle;**
only where the owner or the kind goes up it may lead to a directory then. -/
theorem download_fresh (hr : r.check = .ok ()) (hvacant : f.Vacant r w₀.volume)
    (hrun : Storage.Run (.folder f) r (f.Undisturbed r) w₀ ts w)
    (hclean : ∀ t ∈ ts, f.Clean r t) {link : Link}
    (h : w.perform (Storage.download (.folder f) r).run = (.ok link, w')) :
    link = .file (f.pathOf r.bundleKey) ∧ ∃ p, w'.volume.Leads (f.pathOf r.bundleKey) p ∧
      match f.held r ts with
      | some zip => ∃ mode, w'.volume.face? p = some (.file mode zip)
      | none => (∃ mode c ms, w'.volume.face? p = some (.file mode c) ∧ c.members? = some ms ∧
            f.Archives r w'.volume ms) ∨
          r.GoesUp ∧ ∃ mode, w'.volume.face? p = some (.directory mode) := by
  obtain ⟨hkeeps, hlink⟩ := (keeps_of_run hr hvacant hrun hclean).download hr
  replace h : w.perform (f.download r).run = (.ok link, w') := h
  rw [h] at hkeeps hlink
  obtain ⟨rfl, p, hp⟩ := hlink link rfl
  refine ⟨rfl, p, hp, ?_⟩
  have hbundle := hkeeps.exists_bundle hr hp
  cases hzip : f.held r ts with
  | some zip =>
    have hheld := hkeeps.uploaded zip hzip
    obtain ⟨mode, c, hface, hview⟩ | ⟨-, -, hview⟩ := hbundle
    · obtain rfl := Shape.file.inj (Option.some.inj (hview.symm.trans hheld))
      exact ⟨mode, hface⟩
    · exact absurd (hview.symm.trans hheld) (by simp)
  | none =>
    obtain ⟨mode, c, hface, hview⟩ | ⟨hup, hdir, -⟩ := hbundle
    · obtain ⟨ms, hms, harchives⟩ := hkeeps.made hzip c hview
      exact .inl ⟨mode, c, ms, hface, hms, harchives⟩
    · exact .inr ⟨hup, hdir⟩

end Folder

namespace Storage

open Folder

/-! ## Bundles of one folder -/

/-- The path of other files to upload. -/
def srcA : Path :=
  .ofString "src/a"

/-- The place of the directory of the versions of the model. -/
def versionsDirectory : Place :=
  treePlace.dropLast

/-- The world after a request for the model to the folder. -/
abbrev afterRequest (w : World) (q : Request) : World :=
  Turn.after (.folder storeFolder) model ⟨w, q⟩

/-- The bundle of the first files was made. -/
def bundledStore : World :=
  afterRequest (afterRequest emptyStore (.uploadDir src)) .download

/-- The turns that make the bundle. -/
def bundledTurns : List Turn :=
  [⟨afterRequest emptyStore (.uploadDir src), .download⟩, ⟨emptyStore, .uploadDir src⟩]

theorem vacant_emptyStore : storeFolder.Vacant model emptyStore.volume := by
  have hr : model.check = .ok () := by decide
  exact ⟨bare_emptyStore.grounded descends_model,
    fun x hx => bare_emptyStore.view hr descends_model hx.ne_nil⟩

theorem run_bundledTurns : Run (.folder storeFolder) model (storeFolder.Undisturbed model)
    emptyStore bundledTurns bundledStore :=
  .turn (.turn .start (.uploadDir src)) .download

/-- Other files were uploaded after the bundle was made. -/
def freshTurns : List Turn :=
  ⟨bundledStore, .uploadDir srcA⟩ :: bundledTurns

/-- The bundle of the first files was discarded for other files. -/
def refreshedStore : World :=
  afterRequest bundledStore (.uploadDir srcA)

theorem perform_download_storeFolder {w : World} {link : Link}
    (h : (w.perform (download (.folder storeFolder) model).run).1 = .ok link) :
    w.perform (download (.folder storeFolder) model).run = (.ok link, afterRequest w .download) :=
  Prod.ext h rfl

theorem download_fresh_refreshedStore :
    model.check = .ok () ∧ storeFolder.Vacant model emptyStore.volume ∧
      Run (.folder storeFolder) model (storeFolder.Undisturbed model) emptyStore freshTurns
        refreshedStore ∧
      (∀ t ∈ freshTurns, storeFolder.Clean model t) ∧ storeFolder.held model freshTurns = none ∧
      ∃ p, (afterRequest refreshedStore .download).volume.Leads
          (storeFolder.pathOf model.bundleKey) p ∧
        ∃ mode c ms, (afterRequest refreshedStore .download).volume.face? p = some (.file mode c) ∧
          c.members? = some ms ∧
            storeFolder.Archives model (afterRequest refreshedStore .download).volume ms := by
  have hr : model.check = .ok () := by decide
  have hrun : Run (.folder storeFolder) model (storeFolder.Undisturbed model) emptyStore freshTurns
      refreshedStore :=
    .turn run_bundledTurns (.uploadDir srcA)
  have hclean : ∀ t ∈ freshTurns, storeFolder.Clean model t := by
    refine List.forall_mem_cons.mpr ⟨fun _ _ => ?_, List.forall_mem_cons.mpr ⟨trivial,
      List.forall_mem_cons.mpr ⟨fun c hc => ?_, List.forall_mem_nil _⟩⟩⟩
    · have hok : (bundledStore.volume.remove (storeFolder.pathOf model.bundleKey)).isOk = true := by
        decide +kernel
      exact exists_of_isOk hok
    · exact absurd ((vacant_emptyStore.missing _ .bundle).symm.trans hc) (by simp)
  have hlink : (refreshedStore.perform (download (.folder storeFolder) model).run).1
      = .ok (.file (storeFolder.pathOf model.bundleKey)) := by
    decide +kernel
  obtain ⟨-, p, hp, harchive⟩ :=
    download_fresh hr vacant_emptyStore hrun hclean (perform_download_storeFolder hlink)
  exact ⟨hr, vacant_emptyStore, hrun, hclean, rfl, p, hp,
    harchive.resolve_right fun hup => descends_model.not_goesUp hup.1⟩

/-! ## A bundle that may not be removed -/

/-- After the bundle was made, the directory of the versions may not be changed any more. -/
def lockedStore : World :=
  { bundledStore with volume := bundledStore.volume.modify versionsDirectory (.relock 0o555) }

/-- Other files were uploaded, and the bundle was left. -/
def staleStore : World :=
  afterRequest lockedStore (.uploadDir srcA)

/-- The turns that leave the bundle. -/
def staleTurns : List Turn :=
  ⟨lockedStore, .uploadDir srcA⟩ :: bundledTurns

theorem exists_directory {v : Volume} {p : Place}
    (h : (v.node? p).map Node.isDirectory = some true) :
    ∃ mode, v.face? p = some (.directory mode) := by
  obtain ⟨node, hnode, hdir⟩ := Option.map_eq_some_iff.mp h
  obtain ⟨mode, hface⟩ := isDirectory_iff.mp hdir
  exact ⟨mode, face?_eq_some.mpr ⟨node, hnode, hface⟩⟩

theorem undisturbed_lockedStore : storeFolder.Undisturbed model bundledStore lockedStore := by
  have hplaces : lockedStore.volume.openFile storeFolder.base
        = .ok [.ofText "store" isName_store] ∧
      (lockedStore.volume.node? [.ofText "store" isName_store]).map Node.isDirectory = some true ∧
      bundledStore.volume.openFile (storeFolder.leadPath model) = .ok versionsDirectory ∧
      lockedStore.volume.openFile (storeFolder.leadPath model) = .ok versionsDirectory := by
    decide +kernel
  obtain ⟨hbase, hisdirectory, hlead, hlead'⟩ := hplaces
  obtain ⟨mode, hdirectory⟩ := exists_directory hisdirectory
  exact undisturbed_relock versionsDirectory 0o555 (leads_of_openFile hlead)
    (leads_of_openFile hlead')
    ⟨⟨_, mode, leads_of_openFile hbase, hdirectory⟩,
      fun hup => absurd hup descends_model.not_goesUp⟩

/-- A bundle that holds the first files only is no archive of a tree that holds another. -/
theorem stale_of_download {w w' : World} (hw : afterRequest w .download = w')
    (h : (w.perform (download (.folder storeFolder) model).run).1
        = .ok (.file (storeFolder.pathOf model.bundleKey)) ∧
      w'.volume.openFile (storeFolder.pathOf model.bundleKey) = .ok bundlePlace ∧
      ((w'.content? (.file bundlePlace)).bind Content.members?).map (List.map Member.name)
        = some ["a/e"] ∧
      w'.volume.openFile (storeFolder.leadPath model) = .ok versionsDirectory ∧
      (w'.content?
        (.file (versionsDirectory ++ [model.treeName, .ofText "e" isName_e]))).isSome = true) :
    w.perform (download (.folder storeFolder) model).run
        = (.ok (.file (storeFolder.pathOf model.bundleKey)), w') ∧
      ∀ p mode c, w'.volume.Leads (storeFolder.pathOf model.bundleKey) p →
        w'.volume.face? p = some (.file mode c) →
        ¬ ∃ ms, c.members? = some ms ∧ storeFolder.Archives model w'.volume ms := by
  obtain ⟨hlink, hbundle, hnames, hlead, hfile⟩ := h
  refine ⟨hw ▸ perform_download_storeFolder hlink, ?_⟩
  rintro p mode c hp hface ⟨ms, hms, harchives⟩
  obtain rfl := hp.inj (leads_of_openFile hbundle)
  rw [World.content?_file_eq_some.mpr ⟨mode, hface⟩, Option.bind_some, hms, Option.map_some,
    Option.some_inj] at hnames
  obtain ⟨c', hc'⟩ := Option.isSome_iff_exists.mp hfile
  obtain ⟨mode', hface'⟩ := World.content?_file_eq_some.mp hc'
  have hview := (view_of_leads (f := storeFolder) (r := model) (leads_of_openFile hlead) _).trans
    (congrArg (Option.map Face.shape) hface')
  have hmem := harchives.name_mem hview
  rw [hnames] at hmem
  exact absurd hmem (by decide +kernel)

/-! ## A directory in place of the bundle -/

/-- A resource whose owner goes through the directory `1.zip`, and out of it again. -/
def throughBundle : Resource :=
  ⟨"e6af5323-db4d-4db3-a402-a8992d6c8d99/1.zip/..", "..", "e6af5323-db4d-4db3-a402-a8992d6c8d99", 1⟩

/-- The turn that uploads files as that resource. -/
def throughTurns : List Turn :=
  [⟨emptyStore, .uploadDir src⟩]

/-- Files were uploaded as that resource. -/
def throughStore : World :=
  Turn.after (.folder storeFolder) throughBundle ⟨emptyStore, .uploadDir src⟩

/-- A bundle of that resource was asked for. -/
def throughDownloaded : World :=
  Turn.after (.folder storeFolder) throughBundle ⟨throughStore, .download⟩

theorem isName_throughUuid : IsName throughBundle.uuid := by decide

/-- The place of the bundle of that resource. -/
def throughPlace : Place :=
  [.ofText "store" isName_store, .ofText throughBundle.uuid isName_throughUuid,
    throughBundle.bundleName]

theorem missing_throughBundle (x : Place) :
    storeFolder.view throughBundle emptyStore.volume x = none := by
  have hstat : emptyStore.volume.stat (storeFolder.leadPath throughBundle) = .error .notFound := by
    decide +kernel
  refine view_eq_none (fun lead ⟨node, hn⟩ => ?_) x
  rw [Volume.stat, hn] at hstat
  exact absurd hstat (by simp [bind, Except.bind, pure, Except.pure])

/-- A bundle that could not be removed is served, though it lacks a file of the tree. And where the
owner goes up, a directory is served, though nothing was stored before. -/
theorem not_fresh_lockedStore :
    ((model.check = .ok () ∧ storeFolder.Vacant model emptyStore.volume ∧
        Run (.folder storeFolder) model (storeFolder.Undisturbed model) emptyStore staleTurns
          staleStore ∧
        storeFolder.held model staleTurns = none ∧
        staleStore.perform (download (.folder storeFolder) model).run
          = (.ok (.file (storeFolder.pathOf model.bundleKey)), afterRequest staleStore .download)) ∧
      ∀ p mode c,
        (afterRequest staleStore .download).volume.Leads (storeFolder.pathOf model.bundleKey) p →
        (afterRequest staleStore .download).volume.face? p = some (.file mode c) →
        ¬ ∃ ms, c.members? = some ms ∧
          storeFolder.Archives model (afterRequest staleStore .download).volume ms) ∧
    (throughBundle.check = .ok () ∧ storeFolder.Bare emptyStore.volume ∧
        (∀ x, throughBundle.Own x → storeFolder.view throughBundle emptyStore.volume x = none) ∧
        Run (.folder storeFolder) throughBundle (storeFolder.Undisturbed throughBundle) emptyStore
          throughTurns throughStore ∧
        storeFolder.held throughBundle throughTurns = none ∧
        throughStore.perform (download (.folder storeFolder) throughBundle).run
          = (.ok (.file (storeFolder.pathOf throughBundle.bundleKey)), throughDownloaded)) ∧
      ∃ p mode, throughDownloaded.volume.Leads (storeFolder.pathOf throughBundle.bundleKey) p ∧
        throughDownloaded.volume.face? p = some (.directory mode) := by
  obtain ⟨hlink, hstale⟩ := stale_of_download (w := staleStore) rfl (by decide +kernel)
  have hthrough : (throughStore.perform (download (.folder storeFolder) throughBundle).run).1
        = .ok (.file (storeFolder.pathOf throughBundle.bundleKey)) ∧
      throughDownloaded.volume.openFile (storeFolder.pathOf throughBundle.bundleKey)
        = .ok throughPlace ∧
      (throughDownloaded.volume.node? throughPlace).map Node.isDirectory = some true := by
    decide +kernel
  obtain ⟨hlink', hopen, hisdirectory⟩ := hthrough
  obtain ⟨mode, hface⟩ := exists_directory hisdirectory
  refine ⟨⟨⟨by decide, vacant_emptyStore,
      .turn (.between run_bundledTurns undisturbed_lockedStore) (.uploadDir srcA), rfl, hlink⟩,
      hstale⟩,
    ⟨by decide, bare_emptyStore, fun x _ => missing_throughBundle x, .turn .start (.uploadDir src),
      rfl, ?_⟩, throughPlace, mode, leads_of_openFile hopen, hface⟩
  exact Prod.ext hlink' rfl

end Storage

end Depot
