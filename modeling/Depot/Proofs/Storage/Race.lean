import Depot.Proofs.Folder.Race
import Depot.Proofs.Storage.Freshness

/-!
# After a race of an upload with a download

After a race that `upload_dir` and `download` both win, the bundle is what the download has moved in
since the upload discarded it, or it is missing (`tallies_of_race`). What is moved in may lack what
the upload brought since the tree was listed.

`fresh_iff_of_race`: **after the race a download is fresh just if what was moved in is an archive of
the tree. So it is if the upload made no call since the files were listed.** If it did, all later
downloads may give an archive that lacks what was uploaded (`not_fresh_uploadRace`).

Out of scope: a bundle that may not be removed, and an owner or a kind with a part `..`.
-/

namespace Depot

open Text Volume Terms

namespace Folder

variable {f : Folder} {r : Resource} {m : Moment}
variable {w w' : World} {source : Path} {schedule : List Side} {link : Link}

/-- After a race the bundle is what the download has moved in since the upload discarded it. -/
theorem tallies_of_race (hr : r.check = .ok ()) (hgoes : ¬ r.GoesUp)
    (hobeys : f.Obeys r (upkeep r) w.volume)
    (hclean : f.view r w.volume [r.bundleName] ≠ none → f.Disposes r w.volume)
    (hrace : (Race.start (f.uploadDir r source).run (f.download r).run w).run schedule
      = ⟨.done (.ok ()), .done (.ok link), m⟩) :
    f.Tallies r m ∧ f.view r m.world.volume [r.bundleName] = (movedIn? m.events).map .file ∧
      (Unmoved m.events ∨ f.Listed r m) := by
  have hno : ¬ Discarded [] := fun ⟨_, _, hmem⟩ => absurd hmem List.not_mem_nil
  have hunmoved : Unmoved [] := fun _ _ _ hmem => absurd hmem List.not_mem_nil
  have hstart : f.Tallies r ⟨[], w⟩ := ⟨hobeys, fun hd => absurd hd hno, fun _ => hclean⟩
  obtain ⟨htallies, hdiscarded, hend⟩ := Race.run_eq_done (T := f.terms r)
    (abides_uploadDir hr hgoes source) (abides_download hr) hstart hno hunmoved hrace
  exact ⟨htallies, Tallies.bundle htallies (hdiscarded () rfl), hend link rfl⟩

/-- A link leads to an archive whose members are the files of the tree. -/
def Fresh (f : Folder) (r : Resource) (link : Link) (v : Volume) : Prop :=
  link = .file (f.pathOf r.bundleKey) ∧ ∃ p mode c ms, v.Leads (f.pathOf r.bundleKey) p ∧
    v.face? p = some (.file mode c) ∧ c.members? = some ms ∧ f.Archives r v ms

/-- A download finds a bundle that there is. -/
theorem same_of_download (hr : r.check = .ok ())
    (hother : f.view r w.volume [r.bundleName] ≠ some .other)
    (hthere : f.view r w.volume [r.bundleName] ≠ none)
    (h : w.perform (f.download r).run = (.ok link, w')) : w' = w := by
  rw [download, World.perform_bind_of_ok (World.perform_checkResource hr w),
    World.perform_bind_action, perform_hasKey] at h
  cases hstat : w.volume.stat (f.pathOf r.bundleKey) with
  | ok kind =>
    rw [hstat] at h
    exact (Prod.mk.inj h).2.symm
  | error k =>
    rw [hstat] at h
    cases k with
    | notFound =>
      rw [pathOf_bundleKey f hr] at hstat
      exact absurd (view_of_stat_missing hother hstat) hthere
    | _ => exact absurd (Prod.mk.inj h).1 (by simp)

theorem Keeps.fresh (hr : r.check = .ok ()) (hgoes : ¬ r.GoesUp) (h : f.Keeps r none w.volume)
    (hlink : w.perform (f.download r).run = (.ok link, w')) : f.Fresh r link w'.volume := by
  obtain ⟨hkeeps, hleads⟩ := h.download hr
  rw [hlink] at hkeeps hleads
  obtain ⟨rfl, p, hp⟩ := hleads link rfl
  obtain ⟨mode, c, hface, hview⟩ | ⟨hup, -⟩ := hkeeps.exists_bundle hr hp
  rotate_left
  · exact absurd hup hgoes
  obtain ⟨ms, hms, harchives⟩ := hkeeps.made rfl c hview
  exact ⟨rfl, p, mode, c, ms, hp, hface, hms, harchives⟩

/-- **After a race of an upload and a download that both succeed, a download is fresh just if what
the first one moved in since the bundle was discarded, if it did, is an archive of the tree. So it
is, if the upload made no call since the first one listed the tree.** -/
theorem fresh_iff_of_race (hr : r.check = .ok ()) (hgoes : ¬ r.GoesUp)
    (hobeys : f.Obeys r (upkeep r) w.volume)
    (hclean : f.view r w.volume [r.bundleName] ≠ none → f.Disposes r w.volume)
    (hrace : (Race.start (f.uploadDir r source).run (f.download r).run w).run schedule
      = ⟨.done (.ok ()), .done (.ok link), m⟩) {link' : Link}
    (hlater : m.world.perform (f.download r).run = (.ok link', w')) :
    (f.Fresh r link' w'.volume ↔ ∀ c, movedIn? m.events = some c →
      ∃ ms, c.members? = some ms ∧ f.Archives r m.world.volume ms) ∧
    (Settled m.events → f.Fresh r link' w'.volume) := by
  obtain ⟨htallies, hbundle, hend⟩ := tallies_of_race hr hgoes hobeys hclean hrace
  have hfresh : (∀ c, movedIn? m.events = some c →
      ∃ ms, c.members? = some ms ∧ f.Archives r m.world.volume ms) →
      f.Fresh r link' w'.volume := by
    refine fun hmoved => (htallies.keeps fun c hc => hmoved c ?_).fresh hr hgoes hlater
    rw [hbundle] at hc
    obtain ⟨c', hc', he⟩ := Option.map_eq_some_iff.mp hc
    rw [hc', Shape.file.inj he]
  refine ⟨⟨?_, hfresh⟩, fun hsettled => ?_⟩
  · rintro ⟨-, p, mode, c, ms, hp, hface, hms, harchives⟩ c' hc'
    rw [hc', Option.map_some] at hbundle
    obtain rfl := same_of_download hr (htallies.no_other .bundle) (by simp [hbundle]) hlater
    rw [pathOf_bundleKey f hr] at hp
    have hview := (at_of_leads hr (htallies.no_other .bundle) hp).view
    rw [hbundle, hface] at hview
    obtain rfl := Shape.file.inj (Option.some.inj hview)
    exact ⟨ms, hms, harchives⟩
  · rcases hend with hunmoved | ⟨late, early, reply, hevents, hkeeps⟩
    · exact hfresh fun c hc => nomatch hunmoved.movedIn?.symm.trans hc
    · rw [hevents] at hsettled
      have hown : ∀ e ∈ late, e.side = .right := fun e he =>
        (List.pairwise_append.mp hsettled).2.2 e he _ List.mem_cons_self rfl
      exact (hkeeps hown).fresh hr hgoes hlater

end Folder

namespace Storage

open Folder

/-! ## Other files are uploaded -/

/-- Files were uploaded, and no bundle was made yet. -/
def filledStore : World :=
  afterRequest emptyStore (.uploadDir src)

/-- Other files are uploaded while a download is made. -/
def uploadRace (schedule : List Side) :
    Race (Except StorageError Unit) (Except StorageError Link) :=
  let race := Race.start (storeFolder.uploadDir model srcA).run (storeFolder.download model).run
  (race filledStore).run schedule

/-- The world after the race. -/
def afterRace (schedule : List Side) : World :=
  (uploadRace schedule).now.world

/-- The download looks for the bundle before the upload begins, and for the tree when it is done. -/
def lateListing : List Side :=
  .right :: List.replicate 8 .left ++ List.replicate 12 .right

/-- The upload begins when the download has written its archive, and is done before the archive is
moved. -/
def lateMove : List Side :=
  List.replicate 9 .right ++ List.replicate 8 .left ++ [.right]

theorem keeps_filledStore : storeFolder.Keeps model none filledStore.volume :=
  keeps_turn (t := ⟨emptyStore, .uploadDir src⟩) (by decide)
    (fun _ hc => nomatch (vacant_emptyStore.missing _ .bundle).symm.trans hc)
    vacant_emptyStore.keeps

theorem obeys_filledStore : storeFolder.Obeys model (upkeep model) filledStore.volume :=
  ⟨keeps_filledStore.toGrounded, fun x hx => ⟨keeps_filledStore.other x hx, fun he hdir =>
    descends_model.not_goesUp (keeps_filledStore.bundle (he ▸ hdir))⟩⟩

theorem missing_filledStore :
    storeFolder.view model filledStore.volume [model.bundleName] = none := by
  have hstat : filledStore.volume.stat (storeFolder.pathOf model.bundleKey) = .error .notFound := by
    decide +kernel
  rw [pathOf_bundleKey storeFolder (by decide)] at hstat
  exact view_of_stat_missing (keeps_filledStore.other _ .bundle) hstat

theorem fresh_iff_of_race_filledStore :
    model.check = .ok () ∧ ¬ model.GoesUp ∧
      storeFolder.Obeys model (upkeep model) filledStore.volume ∧
      (storeFolder.view model filledStore.volume [model.bundleName] ≠ none →
        storeFolder.Disposes model filledStore.volume) ∧
      uploadRace lateListing = ⟨.done (.ok ()),
        .done (.ok (.file (storeFolder.pathOf model.bundleKey))), (uploadRace lateListing).now⟩ ∧
      (afterRace lateListing).perform (download (.folder storeFolder) model).run
        = (.ok (.file (storeFolder.pathOf model.bundleKey)),
          afterRequest (afterRace lateListing) .download) ∧
      Settled (uploadRace lateListing).now.events ∧
      storeFolder.Fresh model (.file (storeFolder.pathOf model.bundleKey))
        (afterRequest (afterRace lateListing) .download).volume := by
  have hr : model.check = .ok () := by decide
  have hclean : storeFolder.view model filledStore.volume [model.bundleName] ≠ none →
      storeFolder.Disposes model filledStore.volume :=
    fun hne => absurd missing_filledStore hne
  have hdone : (uploadRace lateListing).results?
      = some (.ok (), .ok (.file (storeFolder.pathOf model.bundleKey))) := by decide +kernel
  have hrace := Race.eq_of_results? hdone
  have hfound : ((afterRace lateListing).perform (download (.folder storeFolder) model).run).1
      = .ok (.file (storeFolder.pathOf model.bundleKey)) := by decide +kernel
  have hlink := perform_download_storeFolder hfound
  have hsettled : Settled (uploadRace lateListing).now.events := by decide +kernel
  have hfresh := fresh_iff_of_race hr descends_model.not_goesUp obeys_filledStore hclean hrace hlink
  exact ⟨hr, descends_model.not_goesUp, obeys_filledStore, hclean, hrace, hlink, hsettled,
    hfresh.2 hsettled⟩

/-- An archive that was made before other files were uploaded is moved in after the bundle was
discarded, and it is what later downloads give. -/
theorem not_fresh_uploadRace :
    (model.check = .ok () ∧ model.Descends ∧
      uploadRace lateMove = ⟨.done (.ok ()),
        .done (.ok (.file (storeFolder.pathOf model.bundleKey))), (uploadRace lateMove).now⟩ ∧
      (afterRace lateMove).perform (download (.folder storeFolder) model).run
        = (.ok (.file (storeFolder.pathOf model.bundleKey)),
          afterRequest (afterRace lateMove) .download)) ∧
    ¬ storeFolder.Fresh model (.file (storeFolder.pathOf model.bundleKey))
        (afterRequest (afterRace lateMove) .download).volume := by
  have hdone : (uploadRace lateMove).results?
      = some (.ok (), .ok (.file (storeFolder.pathOf model.bundleKey))) := by decide +kernel
  have hrace := Race.eq_of_results? hdone
  obtain ⟨hlink, hstale⟩ := stale_of_download (w := afterRace lateMove) rfl (by decide +kernel)
  refine ⟨⟨by decide, descends_model, hrace, hlink⟩, ?_⟩
  rintro ⟨-, p, mode, c, ms, hp, hface, hms, harchives⟩
  exact hstale p mode c hp hface ⟨ms, hms, harchives⟩

end Storage

end Depot
