import Depot.Proofs.Errors
import Depot.Proofs.Storage.RoundTrip

/-!
# Folders to upload that are refused

An upload of a folder that is missing, is no folder or holds no file is refused. A bucket has done
nothing then. A folder looks at the source only when it has discarded the bundle of the resource, so
the bundle is lost, be it made from the files or uploaded (`Storage.not_same_treeAndBundle`).

**`Storage.same_iff_of_refused`**: after such a refusal the world is as it was just if the storage
had no bundle to discard; all else that is stored is as it was in any case.

This is `upload_dir` where `upload_tree` refuses its source: `SourceFolderNotFound`, `SourceFile`
and `SourceFolderEmpty`.
-/

namespace Depot

variable {r : Resource} {source : Path} {e : StorageError} {w w' : World}

/-- An error that the second of two actions does not fail with is that of the first. -/
theorem World.perform_of_not_fails {α β : Type} {E : StorageError → Prop} {x : Action α}
    {f : α → Action β} (hf : ∀ a, (f a).Fails E) (he : ¬ E e)
    (h : w.perform (x >>= f).run = (.error e, w')) : w.perform x.run = (.error e, w') := by
  rw [perform_bind_action] at h
  rcases hx : w.perform x.run with ⟨e' | a, w₁⟩ <;> rw [hx] at h
  · exact congrArg₂ Prod.mk (congrArg Except.error (Except.error.inj (Prod.mk.inj h).1))
      (Prod.mk.inj h).2
  · exact absurd (hf a w₁ e (congrArg Prod.fst h)) he

/-- A folder is refused before any of its files is handed over. -/
theorem same_of_uploadEach {f : String → Handle → Action Unit}
    (hf : ∀ key h, (f key h).Fails StorageError.Met) (he : e.RefusesFolder)
    (h : w.perform (uploadEach source f).run = (.error e, w')) : w' = w := by
  rw [uploadEach_eq] at h
  have hsource := World.perform_of_not_fails (fun files => .handOver hf files)
    (fun hmet => hmet.not_refusesFolder he) h
  have hsame : w = (w.perform (sourceFiles source).run).2 := sourceFiles_moves (R := Eq) w
  rw [hsource] at hsame
  exact hsame.symm

theorem Bucket.same_of_refused {b : Bucket} (hr : r.check = .ok ()) (he : e.RefusesFolder)
    (h : w.perform (b.uploadDir r source).run = (.error e, w')) : w' = w := by
  rw [uploadDir, World.perform_bind_of_ok (World.perform_checkResource hr w)] at h
  exact same_of_uploadEach (b.putFile_fails r.stem) he h

theorem Folder.discarded_of_refused {f : Folder} (hr : r.check = .ok ()) (he : e.RefusesFolder)
    (h : w.perform (f.uploadDir r source).run = (.error e, w')) :
    w' = { w with volume := w.volume.without (f.pathOf r.bundleKey) } := by
  rw [uploadDir, World.perform_bind_of_ok (World.perform_checkResource hr w),
    World.perform_bind_of_ok (perform_discardBundle w)] at h
  exact same_of_uploadEach (putFile_fails _) he h

namespace Volume

variable {v : Volume} {path : Path}

/-- A path names an entry that the system lets be removed: it is no directory. -/
def Removable (v : Volume) (path : Path) : Prop :=
  ∃ p fc, v.Names path p ∧ v.canChange p.dropLast = true ∧ v.face? p = some fc ∧
    ∀ mode, fc ≠ .directory mode

/-- An attempt to remove something fails just if nothing can be removed. -/
theorem without_eq_self_iff
    (hpath : ∀ s, v.find .keep path = .ok s → s.name.isSome ∧ s.closed = false) :
    v.without path = v ↔ ¬ v.Removable path := by
  constructor
  · rintro hsame ⟨p, fc, ⟨s, hs, rfl⟩, hchange, hface, hdir⟩
    obtain ⟨hname, hclosed⟩ := hpath s hs
    obtain ⟨node, hnode, rfl⟩ := face?_eq_some.mp hface
    obtain ⟨d, n, node', closed⟩ := s
    obtain ⟨n, rfl⟩ := Option.isSome_iff_exists.mp hname
    cases hclosed
    obtain rfl : node' = some node := (sound_of_find hs).node.trans hnode
    have hno : node.isDirectory = false := by
      rw [Bool.eq_false_iff]
      intro h
      obtain ⟨mode, hmode⟩ := isDirectory_iff.mp h
      exact hdir mode hmode
    rw [Spot.place, Option.toList_some, List.dropLast_concat] at hchange
    have hnone := (puts_remove hs hchange hno).face?_self
    have hremove := remove_eq_ok.mpr ⟨d, n, node, hs, hchange, hno, rfl⟩
    rw [without, hremove] at hsame
    rw [show v.modify d (Node.erase n) = v from hsame] at hnone
    exact absurd (hnone.symm.trans hface) (by simp)
  · intro hno
    obtain h | ⟨d, n, node, hs, hchange, hdir, -⟩ := v.without_cases path
    · exact h
    · refine absurd ⟨d ++ [n], node.face, ⟨_, hs, rfl⟩, ?_, ?_, fun mode hmode => ?_⟩ hno
      · rwa [List.dropLast_concat]
      · exact face?_eq_some.mpr ⟨node, (sound_of_find hs).get?_place rfl, rfl⟩
      · rw [isDirectory_iff.mpr ⟨mode, hmode⟩] at hdir
        exact absurd hdir (by simp)

end Volume

namespace World

theorem setVolume_eq_self_iff (w : World) (v : Volume) :
    { w with volume := v } = w ↔ v = w.volume :=
  ⟨fun h => congrArg World.volume h, fun h => h ▸ rfl⟩

theorem content?_setVolume_object (w : World) (v : Volume) (store : StoreRef) (p : ObjectPath) :
    content? { w with volume := v } (.object store p) = w.content? (.object store p) := by
  cases store <;> rfl

end World

namespace Storage

variable {s : Storage}

/-- A storage has a bundle that an upload discards: what is in its place can be removed. -/
def Disposable (s : Storage) (r : Resource) (w : World) : Prop :=
  match s with
  | .folder f => w.volume.Removable (f.pathOf r.bundleKey)
  | .bucket _ => False

/-- **After an upload that refused its folder the world is as it was just if the storage had no
bundle to discard, and only the bundle can be missing.** -/
theorem same_iff_of_refused (hr : r.check = .ok ()) (he : e.RefusesFolder)
    (h : w.perform (s.uploadDir r source).run = (.error e, w')) :
    (w' = w ↔ ¬ s.Disposable r w) ∧
      ∀ site, w'.content? site = w.content? site ∨
        s.BundleAt r w site ∧ w'.content? site = none := by
  cases s with
  | bucket b =>
    obtain rfl := Bucket.same_of_refused hr he h
    exact ⟨iff_of_true rfl id, fun site => .inl rfl⟩
  | folder f =>
    obtain rfl := Folder.discarded_of_refused hr he h
    have hpath : ∀ t, w.volume.find .keep (f.pathOf r.bundleKey) = .ok t →
        t.name.isSome ∧ t.closed = false := by
      intro t ht
      obtain ⟨-, hname, hclosed⟩ := Folder.spot_of_find_bundle hr ht
      exact ⟨by rw [hname]; rfl, hclosed⟩
    refine ⟨Iff.trans ?_ (Volume.without_eq_self_iff hpath), fun site => ?_⟩
    · exact w.setVolume_eq_self_iff _
    · cases site with
      | object store p => exact .inl (w.content?_setVolume_object _ store p)
      | file p =>
        obtain hkept | ⟨hnamed, hnone⟩ := w.content?_without_cases (f.pathOf r.bundleKey) p
        · exact .inl hkept
        · exact .inr ⟨hnamed, hnone⟩

/-! ## An upload of nothing -/

theorem perform_uploadDir_refused {w : World} {e : StorageError}
    (h : (w.perform (storeFolder.uploadDir model src).run).1 = .error e) :
    w.perform (uploadDir (.folder storeFolder) model src).run = (.error e, afterUpload w) :=
  Prod.ext h rfl

theorem same_iff_of_refused_treeAndBundle :
    model.check = .ok () ∧ StorageError.RefusesFolder (.sourceEmpty src) ∧
      treeAndBundle.perform (uploadDir (.folder storeFolder) model src).run
        = (.error (.sourceEmpty src), afterUpload treeAndBundle) ∧
      (afterUpload treeAndBundle = treeAndBundle ↔
        ¬ Disposable (.folder storeFolder) model treeAndBundle) ∧
      ∀ site, (afterUpload treeAndBundle).content? site = treeAndBundle.content? site ∨
        BundleAt (.folder storeFolder) model treeAndBundle site ∧
          (afterUpload treeAndBundle).content? site = none := by
  have hr : model.check = .ok () := by decide
  have hup : treeAndBundle.perform (uploadDir (.folder storeFolder) model src).run
      = (.error (.sourceEmpty src), afterUpload treeAndBundle) :=
    perform_uploadDir_refused (by decide +kernel)
  exact ⟨hr, .empty src, hup, same_iff_of_refused hr (.empty src) hup⟩

/-- An upload that is refused loses a bundle that was uploaded. -/
theorem not_same_treeAndBundle :
    model.check = .ok () ∧
      (treeAndBundle.perform (uploadDir (.folder storeFolder) model src).run).1
        = .error (.sourceEmpty src) ∧
      treeAndBundle.content? (.file bundlePlace) ≠ none ∧
      (treeAndBundle.perform (uploadDir (.folder storeFolder) model src).run).2.content?
        (.file bundlePlace) = none := by
  have hbefore : (treeAndBundle.content? (.file bundlePlace)).isSome = true := by decide +kernel
  have hafter : ((treeAndBundle.perform (uploadDir (.folder storeFolder) model src).run).2.content?
      (.file bundlePlace)).isNone = true := by
    decide +kernel
  exact ⟨by decide, by decide +kernel, Option.isSome_iff_ne_none.mp hbefore,
    Option.isNone_iff_eq_none.mp hafter⟩

end Storage

end Depot
