import Depot.Proofs.Folder.Place
import Depot.Proofs.Folder.Upload

/-!
# What an upload spares in a folder

Whatever comes of an upload, it changes a folder only where the keys of its resource lead: elsewhere
every file stays, and nothing but directories is added (`uploadDir_moves`, `uploadZip_moves`). This
is said of volumes in which no link is on the way to these keys.

The operations are `upload_dir` and `upload_zip` of `LocalStorage`.
-/

namespace Depot

open Volume

namespace Folder

variable {f : Folder} {r : Resource} {w w' : World} {v v' : Volume} {key : String}

/-- Where the keys of a resource lead if there are no links. -/
def Stored (f : Folder) (r : Resource) (here p : Place) : Prop :=
  ∃ key, r.IsKey key ∧ settled (f.pathOf key) here = p

/-- No link is on the way to what is stored of a resource. -/
def Unlinked (f : Folder) (r : Resource) (v : Volume) : Prop :=
  ∀ key, r.IsKey key → v.Unlinked (f.pathOf key)

/-- Only what is stored of a resource may have changed. -/
def Spares (f : Folder) (r : Resource) (w w' : World) : Prop :=
  f.Unlinked r w.volume → Volume.Spares (f.Stored r w.volume.here) w.volume w'.volume

theorem Unlinked.steady (h : f.Unlinked r v) (hv : Steady v v') : f.Unlinked r v' :=
  fun key hk => (h key hk).steady hv

instance : IsPreorder World (f.Spares r) where
  refl _ _ := .refl _ _
  trans _ _ _ h h' hw := by
    have h₁ := h hw
    have h₂ := h' (hw.steady h₁.toSteady)
    rw [h₁.here] at h₂
    exact h₁.trans h₂

theorem Unlinked.stored (h : f.Unlinked r v) (hk : r.IsKey key) {last : Last} {s : Spot}
    (hs : v.find last (f.pathOf key) = .ok s) : f.Stored r v.here s.place :=
  ⟨key, hk, ((h key hk).place hs).symm⟩

/-- The bundle is no link. -/
theorem Unlinked.bundle (h : f.Unlinked r v) (hr : r.check = .ok ()) (target : Path) :
    v.face? (settled (f.pathOf r.bundleKey) v.here) ≠ some (.link target) := by
  intro hl
  have hroute : (f.pathOf r.bundleKey).route = (f.pathOf r.leadKey).route
      ++ [.name (.ofText r.bundleEntry r.isName_bundleEntry)] := by
    rw [r.bundleKey_eq, pathOf_entryKey f hr r.isName_bundleEntry,
      Path.route_join _ (Path.isAbsolute_name _), Path.route_name]
  have hnone := h _ .bundle (f.pathOf r.leadKey).route _ (by rw [← hroute])
  rw [← hroute] at hnone
  exact absurd ((target?_eq_some.mpr hl).symm.trans hnone) (by simp)

/-! ## The steps of an upload -/

theorem makeParent_moves {p : Path} : (makeParent p).Moves (f.Spares r) := by
  unfold makeParent
  split
  · next parent _ =>
    refine .ofReply (.call ?_)
    intro w _
    exact (adds_makeDirectories w.volume parent).mono fun _ => False.elim
  · exact .pure _

theorem discardBundle_moves (hr : r.check = .ok ()) : (f.discardBundle r).Moves (f.Spares r) := by
  intro w hw
  rw [perform_discardBundle]
  refine spares_without (fun p ⟨s, hs, hp⟩ => hp ▸ hw.stored .bundle hs)
    fun p target ⟨s, hs, hp⟩ => ?_
  rw [← hp, (hw _ .bundle).place hs]
  exact hw.bundle hr target

/-- A file that is put changes what its key leads to. -/
theorem putFile_moves {names : List Name} (hne : names ≠ []) (file : Handle) :
    (putFile (f.pathOf r.stem) (Resource.relativeKey names) file).Moves (f.Spares r) := by
  refine .bind makeParent_moves fun _ => ?_
  rw [← pathOf_fileKey]
  generalize hkey : r.stem ++ "/" ++ Resource.relativeKey names = key
  have hk : r.IsKey key := hkey ▸ r.isKey_relativeKey hne
  intro w hw
  refine World.perform_bind_cases
    (motive := fun w' => Volume.Spares (f.Stored r w.volume.here) w.volume w'.volume)
    (fun e w₁ hout => ?_) fun out w₁ hout => ?_
  · have hsame : (World.answer (.create (f.pathOf key)) w).2 = w₁ := congrArg Prod.snd hout
    rw [← hsame, World.volume_create]
    cases hcreate : w.volume.create (f.pathOf key) with
    | error k => exact .refl _ _
    | ok created => exact (spares_createWith (fun s hs => hw.stored hk hs) hcreate).2.1
  · obtain ⟨v₁, hcreate, rfl⟩ := World.answer_create_eq_ok.mp (World.perform_ofReply_eq_ok.mp hout)
    obtain ⟨hp, hspares, he⟩ := spares_createWith (fun s hs => hw.stored hk hs) hcreate
    change Volume.Spares _ _ (v₁.copyAt file out).2
    rw [copyAt_snd]
    exact hspares.trans (spares_writeAt hp he _)

/-! ## Uploads -/

theorem uploadDir_moves (hr : r.check = .ok ()) (source : Path) :
    (f.uploadDir r source).Moves (f.Spares r) := by
  refine .bind (.check _) fun _ => ?_
  refine .bind (discardBundle_moves hr) fun _ => ?_
  exact uploadEach_moves fun names hne file => putFile_moves hne file

theorem uploadZip_moves (bundle : Path) : (f.uploadZip r bundle).Moves (f.Spares r) := by
  refine .bind (.check _) fun _ => ?_
  refine .bind checkBundleFile_moves fun _ => ?_
  refine .bind makeParent_moves fun _ => ?_
  exact .ofReply (.call fun w hw => spares_copyFile fun s hs => hw.stored .bundle hs)

end Folder

end Depot
