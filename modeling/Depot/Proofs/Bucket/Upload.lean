import Depot.Bucket
import Depot.Proofs.Object.Path
import Depot.Proofs.Object.Store
import Depot.Proofs.Source

/-!
# What an upload leaves in a bucket

Each file of an upload is put as the object of its key (`putFile_eq_ok`). Different keys have
different objects, so after all files were put each object holds what was read (`found_of_uploads`),
and the other objects are as before (`spares_of_uploads`).

An upload that fails may have put some of its files, but it has changed no object that is not one of
its resource (`uploadDir_moves`, `uploadZip_moves`).

These are `put_file` of `CloudSink` and the `put` of `upload_zip`.
-/

namespace Depot

/-! ## Stores by name -/

namespace World

theorem store_setStore (w : World) (name other : String) (s : ObjectStore) :
    (w.setStore name s).store other = if other = name then s else w.store other := by
  rw [store, setStore, lookup_cons_if, lookup_filter_ne]
  split <;> rfl

theorem asking_eq_ok {α : Type} {w w' : World} {name : String}
    {request : ObjectStore → Except StoreError α × ObjectStore} {a : α} :
    w.asking (.named name) request = (.ok a, w') ↔
      ∃ s, request (w.store name) = (.ok a, s) ∧ w.setStore name s = w' := by
  rw [asking]
  rcases request (w.store name) with ⟨e | b, s⟩ <;> simp [and_assoc]

theorem perform_put_eq_ok {w w' : World} {name : String} {p : ObjectPath} {c : Content} :
    w.perform (.ofCall (.put (.named name) p c)) = (.ok (), w') ↔
      ∃ s, (w.store name).put p c = (.ok (), s) ∧ w.setStore name s = w' := by
  change w.asking (.named name) (·.put p c) = _ ↔ _
  exact asking_eq_ok

theorem perform_get_eq_ok {w w' : World} {name : String} {p : ObjectPath} {c : Content} :
    w.perform (.ofCall (.get (.named name) p)) = (.ok c, w') ↔
      ∃ s, (w.store name).get p = (.ok c, s) ∧ w.setStore name s = w' := by
  change w.asking (.named name) (·.get p) = _ ↔ _
  exact asking_eq_ok

theorem perform_body_eq_ok {w w' : World} {name : String} {c c' : Content} :
    w.perform (.ofCall (.body (.named name) c)) = (.ok c', w') ↔
      ∃ s, (w.store name).body c = (.ok c', s) ∧ w.setStore name s = w' := by
  change w.asking (.named name) (·.body c) = _ ↔ _
  exact asking_eq_ok

end World

namespace Bucket

variable {b : Bucket} {r : Resource} {w w' : World} {name : String}

/-! ## One file -/

theorem putFile_eq_ok {stem relative : String} {file : Handle} (hb : b.store = .named name)
    (h : w.perform (b.putFile stem relative file).run = (.ok (), w')) :
    ∃ c s, w.volume.readAt file = .ok c ∧
      (w.store name).put (.ofKey (stem ++ "/" ++ relative)) c = (.ok (), s) ∧
      w' = w.setStore name s := by
  obtain ⟨c, w₁, hread, h⟩ := World.perform_bind_eq_ok.mp h
  obtain ⟨hc, rfl⟩ := Prod.mk.inj (World.perform_ofReply_eq_ok.mp hread)
  replace h := World.perform_ofReply_eq_ok.mp h
  rw [hb] at h
  obtain ⟨s, hput, rfl⟩ := World.perform_put_eq_ok.mp h
  exact ⟨c, s, hc, hput, rfl⟩

/-- A service is out of reach. -/
theorem exists_named_of_putFile {stem relative : String} {file : Handle}
    (h : w.perform (b.putFile stem relative file).run = (.ok (), w')) :
    ∃ name, b.store = .named name := by
  obtain ⟨c, w₁, hread, h⟩ := World.perform_bind_eq_ok.mp h
  replace h := World.perform_ofReply_eq_ok.mp h
  cases hb : b.store with
  | named name => exact ⟨name, rfl⟩
  | service location =>
    rw [hb] at h
    exact nomatch (Prod.mk.inj h).1

/-! ## File after file -/

variable {stem : String} {files : List SourceFile}

/-- An upload changes nothing but the store of the bucket. -/
theorem elsewhere_of_uploads (hb : b.store = .named name)
    (h : Uploads (b.putFile stem) files w w') :
    w'.volume = w.volume ∧ ∀ other, other ≠ name → w'.store other = w.store other := by
  induction h with
  | nil w => exact ⟨rfl, fun _ _ => rfl⟩
  | cons _ hput _ ih =>
    obtain ⟨c, s, -, -, rfl⟩ := putFile_eq_ok hb hput
    refine ⟨ih.1, fun other hne => (ih.2 other hne).trans ?_⟩
    rw [World.store_setStore, if_neg hne]

/-- There it changes the objects of the keys. -/
theorem spares_of_uploads (hb : b.store = .named name) (h : Uploads (b.putFile stem) files w w') :
    ObjectStore.Spares (fun p => ∃ file ∈ files, p = .ofKey (stem ++ "/" ++ file.key))
      (w.store name) (w'.store name) := by
  induction h with
  | nil w => exact .refl _ _
  | @cons file rest _ w _ _ _ hput _ ih =>
    obtain ⟨c, s, -, hs, rfl⟩ := putFile_eq_ok hb hput
    rw [World.store_setStore, if_pos rfl] at ih
    have hfirst : ObjectStore.Spares
        (fun p => ∃ f ∈ file :: rest, p = .ofKey (stem ++ "/" ++ f.key)) (w.store name) s := by
      rw [show s = _ from (congrArg Prod.snd hs).symm]
      exact ObjectStore.spares_put ⟨file, List.mem_cons_self, rfl⟩
    exact hfirst.trans (ih.mono fun p ⟨f, hf, hp⟩ => ⟨f, List.mem_cons_of_mem _ hf, hp⟩)

/-- An object holds what was read from the last file of its key. -/
theorem found_of_last {pre post : List SourceFile} {file : SourceFile} (hb : b.store = .named name)
    (h : Uploads (b.putFile stem) (pre ++ file :: post) w w')
    (hlast : ∀ other ∈ post,
      ObjectPath.ofKey (stem ++ "/" ++ other.key) ≠ .ofKey (stem ++ "/" ++ file.key)) :
    ∃ c, w.volume.readFile file.path = .ok c ∧
      (w'.store name).find? (.ofKey (stem ++ "/" ++ file.key)) = some c := by
  induction pre generalizing w with
  | nil =>
    cases h with
    | cons hopen hput hrest =>
      obtain ⟨c, s, hread, hs, rfl⟩ := putFile_eq_ok hb hput
      refine ⟨c, bind_eq_ok.mpr ⟨_, hopen, hread⟩, ?_⟩
      rw [(spares_of_uploads hb hrest).kept _ fun ⟨other, ho, he⟩ => hlast other ho he.symm,
        World.store_setStore, if_pos rfl, ObjectStore.find?_of_put hs]
  | cons first pre ih =>
    cases h with
    | cons _ hput hrest =>
      obtain ⟨c, s, -, -, rfl⟩ := putFile_eq_ok hb hput
      obtain ⟨c, hread, hfind⟩ := ih hrest
      exact ⟨c, hread, hfind⟩

/-- Objects of different keys hold what was read from the files. -/
theorem found_of_uploads (hb : b.store = .named name) (h : Uploads (b.putFile stem) files w w')
    (hkeys : (files.map fun file => ObjectPath.ofKey (stem ++ "/" ++ file.key)).Nodup) :
    ∀ file ∈ files, ∃ c, w.volume.readFile file.path = .ok c ∧
      (w'.store name).find? (.ofKey (stem ++ "/" ++ file.key)) = some c := by
  intro file hf
  obtain ⟨pre, post, rfl⟩ := List.append_of_mem hf
  rw [List.map_append, List.map_cons] at hkeys
  have hnodup := (List.nodup_append.mp hkeys).2.1
  refine found_of_last hb h fun other ho he => ?_
  exact (List.nodup_cons.mp hnodup).1 (List.mem_map.mpr ⟨other, ho, he⟩)

/-- An upload that succeeds is one to a store that can be reached, and has put every file that was
collected. -/
theorem uploads_of_uploadDir {source : Path} (hr : r.check = .ok ())
    (hfiles : w.perform (collect source).run = (.ok files, w))
    (h : w.perform (b.uploadDir r source).run = (.ok (), w')) :
    ∃ name, b.store = .named name ∧ w.volume.stat source = .ok .directory ∧
      Uploads (b.putFile r.stem) files w w' := by
  rw [uploadDir, World.perform_bind_of_ok (World.perform_checkResource hr w)] at h
  obtain ⟨hdir, files', hne, hcollect, huploads⟩ := uploads_of_uploadEach h
  obtain rfl := Except.ok.inj (Prod.mk.inj (hfiles.symm.trans hcollect)).1
  cases huploads with
  | nil => exact absurd rfl hne
  | cons hopen hput hrest =>
    obtain ⟨name, hb⟩ := exists_named_of_putFile hput
    exact ⟨name, hb, hdir, .cons hopen hput hrest⟩

/-! ## Files that are fetched -/

/-- A file is fetched if its object is there and both requests go through. -/
theorem getFile_eq_ok {path key : String} {c : Content} (hr : r.check = .ok ())
    (hk : r.fileKey path = .ok key) (hb : b.store = .named name) :
    (w.perform (b.getFile r path).run).1 = .ok c ↔ (w.store name).find? (.ofKey key) = some c ∧
      (w.store name).Passes .get ∧ (w.store name).Passes .body := by
  have hgot : ∀ s, (w.setStore name s).store name = s := by
    intro s
    rw [World.store_setStore, if_pos rfl]
  rw [getFile, World.perform_bind_of_ok (World.perform_checkResource hr w),
    World.perform_bind_of_ok (World.perform_checkKey hk w), hb]
  constructor
  · intro h
    obtain ⟨c', w₁, hget, hbody⟩ := World.perform_bind_eq_ok.mp (Prod.ext h rfl)
    obtain ⟨s, hs, rfl⟩ := World.perform_get_eq_ok.mp (World.perform_ofReply_eq_ok.mp hget)
    obtain ⟨hfind, hpass, rfl⟩ := ObjectStore.get_eq_ok.mp hs
    obtain ⟨s, hs, -⟩ := World.perform_body_eq_ok.mp (World.perform_ofReply_eq_ok.mp hbody)
    obtain ⟨hpass', rfl, -⟩ := ObjectStore.body_eq_ok.mp hs
    rw [hgot] at hpass'
    exact ⟨hfind, hpass, (ObjectStore.passes_after (by decide)).mp hpass'⟩
  · rintro ⟨hfind, hpass, hpass'⟩
    have hget := World.perform_get_eq_ok.mpr ⟨_, ObjectStore.get_eq_ok.mpr ⟨hfind, hpass, rfl⟩, rfl⟩
    rw [World.perform_bind_of_ok (World.perform_ofReply_eq_ok.mpr hget)]
    have hafter : ((w.store name).after .get).Passes .body :=
      (ObjectStore.passes_after (by decide)).mpr hpass'
    rw [← hgot (ObjectStore.after _ _)] at hafter
    have hbody := World.perform_body_eq_ok.mpr
      ⟨_, ObjectStore.body_eq_ok.mpr ⟨hafter, Eq.refl c, rfl⟩, rfl⟩
    exact congrArg Prod.fst (World.perform_ofReply_eq_ok.mpr hbody)

/-- A file of which there is no object is not found. -/
theorem perform_getFile_missing {path key : String} (hr : r.check = .ok ())
    (hk : r.fileKey path = .ok key) (hb : b.store = .named name)
    (hnone : (w.store name).find? (.ofKey key) = none) (hpass : (w.store name).Passes .get) :
    (w.perform (b.getFile r path).run).1
      = .error (.notFound key (some (.store .notFound))) := by
  rw [getFile, World.perform_bind_of_ok (World.perform_checkResource hr w),
    World.perform_bind_of_ok (World.perform_checkKey hk w), hb, World.perform_bind_action,
    World.perform_ofReply, World.perform_ofCall]
  have hget : (World.answer (.get (.named name) (.ofKey key)) w).1 = .error .notFound :=
    ObjectStore.get_of_missing hnone hpass
  rw [hget]
  rfl

/-- A service answers no request. -/
theorem exists_named_of_getFile {path : String} {c : Content}
    (h : (w.perform (b.getFile r path).run).1 = .ok c) : ∃ name, b.store = .named name := by
  cases hb : b.store with
  | named name => exact ⟨name, rfl⟩
  | service location =>
    obtain ⟨_, w₁, -, h⟩ := World.perform_bind_eq_ok.mp (Prod.ext h rfl)
    obtain ⟨key, w₂, -, h⟩ := World.perform_bind_eq_ok.mp h
    obtain ⟨_, w₃, hget, -⟩ := World.perform_bind_eq_ok.mp h
    rw [hb] at hget
    exact nomatch (Prod.mk.inj hget).1

/-! ## Whatever comes of an upload -/

/-- Only the objects of a resource may have changed. -/
def Spares (b : Bucket) (r : Resource) (w w' : World) : Prop :=
  ∀ name, ObjectStore.Spares (fun p => ∃ key, r.IsKey key ∧ b.store = .named name ∧ .ofKey key = p)
    (w.store name) (w'.store name)

instance : IsPreorder World (b.Spares r) where
  refl _ _ := .refl _ _
  trans _ _ _ h h' name := (h name).trans (h' name)

theorem putKey_moves {key : String} (hk : r.IsKey key) (c : Content) :
    (b.putKey key c).Moves (b.Spares r) := by
  refine .ofReply (.call fun w other => ?_)
  change ObjectStore.Spares _ _ ((w.asking b.store (·.put (.ofKey key) c)).2.store other)
  cases hb : b.store with
  | service location => exact .refl _ _
  | named name =>
    rw [World.asking, World.store_setStore]
    split
    · next ho => exact ho ▸ ObjectStore.spares_put ⟨key, hk, rfl, rfl⟩
    · exact .refl _ _

theorem uploadDir_moves (source : Path) : (b.uploadDir r source).Moves (b.Spares r) := by
  refine .bind (.check _) fun _ => ?_
  refine uploadEach_moves fun names hne file => ?_
  refine .bind (.ofReply (.call fun w => Std.Refl.refl w)) fun c => ?_
  exact putKey_moves (r.isKey_relativeKey hne) c

theorem uploadZip_moves (bundle : Path) : (b.uploadZip r bundle).Moves (b.Spares r) := by
  refine .bind (.check _) fun _ => ?_
  refine .bind checkBundleFile_moves fun _ => ?_
  refine .bind (.bind (.ofReply (.call fun w => Std.Refl.refl w)) fun file => ?_) fun c => ?_
  · exact .ofReply (.call fun w => Std.Refl.refl w)
  · exact putKey_moves .bundle c

end Bucket

end Depot
