import Depot.Proofs.Bucket.Ledger
import Depot.Proofs.Folder.Failure

/-!
# What an upload leaves when it fails

`upload_dir` and `upload_zip` may fail at any file and at any step (the specification, section 5,
asks for atomicity of each file). What an upload leaves at a site is `Storage.Whole` if it is what
was there before, or all that a source of the site held when the upload came to it
(`Storage.Upload.steps`), or if it is a bundle that was discarded.

* A bucket reads a source before it asks for anything to be put, so all that it leaves is whole.
* A folder empties a file before it reads the source, and fills it as it reads. So what it leaves
  may fall short of the source (`Storage.Cut`): nothing of it if the source is the file itself, else
  what was read before reading failed, or as much as could be written.
* `Storage.Leaves` is what an upload leaves, step by step: `leaves_folder` and `leaves_bucket` are
  one step, `leaves_handOver` is a run of them.
* `upload_whole_iff`: **all that an upload leaves is whole just if each site that was cut holds, all
  the same, what it held before or what one of its sources held.**

Out of scope: what else writes to the storage meanwhile, and a source that changes while it is read.
-/

namespace Depot

/-! ## What uploads leave alone -/

namespace World

/-- The worlds have the same stores. -/
def SameStores (w w' : World) : Prop :=
  w'.stores = w.stores

/-- Only the objects of a store differ. -/
def ChangesIn (store : StoreRef) (w w' : World) : Prop :=
  ∀ site, (∀ p, site ≠ .object store p) → w'.content? site = w.content? site

instance : IsPreorder World SameStores where
  refl _ := rfl
  trans _ _ _ h h' := Eq.trans h' h

instance {store : StoreRef} : IsPreorder World (ChangesIn store) where
  refl _ _ _ := rfl
  trans _ _ _ h h' site hne := (h' site hne).trans (h site hne)

theorem SameStores.content? {w w' : World} (h : SameStores w w') (store : StoreRef)
    (p : ObjectPath) : w'.content? (.object store p) = w.content? (.object store p) := by
  cases store with
  | service location => rfl
  | named name => rw [World.content?, World.content?, store, store, h]

theorem sameStores_create (w : World) (p : Path) : SameStores w (answer (.create p) w).2 := by
  rw [answer]
  rcases w.volume.create p with k | ⟨h, v⟩ <;> rfl

theorem changesIn_put (w : World) (store : StoreRef) (p : ObjectPath) (c : Content) :
    ChangesIn store w (answer (.put store p c) w).2 := by
  intro site hne
  cases site with
  | file q => rw [content?, content?, Bucket.volume_put]
  | object other q =>
    cases store with
    | service location => rfl
    | named name =>
      cases other with
      | service location => rfl
      | named other =>
        have ho : other ≠ name := fun he => hne q (he ▸ rfl)
        refine congrArg (ObjectStore.find? · q) ?_
        exact (w.store_setStore name other _).trans (if_neg ho)

end World

namespace Bucket

variable {b : Bucket} {r : Resource}

theorem putKey_changesIn (key : String) (c : Content) :
    (b.putKey key c).Moves (World.ChangesIn b.store) :=
  .ofReply (.call fun w => World.changesIn_put w b.store _ c)

theorem putFile_changesIn (stem relative : String) (file : Handle) :
    (b.putFile stem relative file).Moves (World.ChangesIn b.store) :=
  .bind (.ofReply (.call fun w => Std.Refl.refl w)) fun c => putKey_changesIn _ c

theorem uploadZip_changesIn (bundle : Path) :
    (b.uploadZip r bundle).Moves (World.ChangesIn b.store) := by
  refine .bind (.check _) fun _ => .bind checkBundleFile_moves fun _ => ?_
  refine .bind (.bind (.ofReply (.call fun w => Std.Refl.refl w)) fun file => ?_)
    fun c => putKey_changesIn _ c
  exact .ofReply (.call fun w => Std.Refl.refl w)

end Bucket

namespace Folder

variable {f : Folder} {r : Resource}

theorem makeParent_sameStores (p : Path) : (makeParent p).Moves World.SameStores := by
  unfold makeParent
  split
  · exact .ofReply (.call fun w => rfl)
  · exact .pure _

theorem putFile_sameStores (root : Path) (key : String) (file : Handle) :
    (putFile root key file).Moves World.SameStores := by
  refine .bind (makeParent_sameStores _) fun _ => ?_
  refine .bind (.ofReply (.call fun w => World.sameStores_create w _)) fun out => ?_
  exact .ofReply (.call fun w => rfl)

theorem uploadZip_sameStores (bundle : Path) : (f.uploadZip r bundle).Moves World.SameStores := by
  refine .bind (.check _) fun _ => .bind checkBundleFile_moves fun _ => ?_
  exact .bind (makeParent_sameStores _) fun _ => .ofReply (.call fun w => rfl)

end Folder

/-! ## The steps of an upload -/

namespace Storage

/-- What is uploaded: the files of a folder, or a bundle. -/
inductive Upload where
  | dir (source : Path)
  | zip (bundle : Path)
  deriving DecidableEq

/-- Stores what is uploaded for a resource: `upload_dir` and `upload_zip`. -/
def upload (s : Storage) (r : Resource) : Upload → Action Unit
  | .dir source => s.uploadDir r source
  | .zip bundle => s.uploadZip r bundle

/-- Stores a file that was opened as a file of a resource: `put_file` of the sinks. -/
def putFile : Storage → Resource → String → Handle → Action Unit
  | .folder f, r => Folder.putFile (f.pathOf r.stem)
  | .bucket b, r => b.putFile r.stem

/-- A file that an upload comes to: its key, the path of its source, and the world in which the
upload comes to it. -/
structure Step where
  key : String
  source : Path
  world : World

/-- The files that are handed over, up to the first that fails. -/
def stepsOf (s : Storage) (r : Resource) : List SourceFile → World → List Step
  | [], _ => []
  | file :: rest, w =>
    ⟨r.stem ++ "/" ++ file.key, file.path, w⟩ ::
      match w.perform (handOver (s.putFile r) [file]).run with
      | (.ok (), w₁) => s.stepsOf r rest w₁
      | (.error _, _) => []

namespace Upload

/-- The world in which an upload looks for its sources: a folder discards the bundle first. -/
def start (s : Storage) (r : Resource) (w : World) : Upload → World
  | .dir _ =>
    match s with
    | .folder f => { w with volume := w.volume.without (f.pathOf r.bundleKey) }
    | .bucket _ => w
  | .zip _ => w

/-- The files that an upload comes to. -/
def steps (s : Storage) (r : Resource) (w : World) : Upload → List Step
  | .dir source =>
    let w := (Upload.dir source).start s r w
    s.stepsOf r (w.volume.filesIn source) w
  | .zip bundle => [⟨r.bundleKey, bundle, w⟩]

/-- Whether an upload discards the bundle of the resource. -/
def Discards : Upload → Prop
  | .dir _ => True
  | .zip _ => False

end Upload

variable (s : Storage) (r : Resource) (u : Upload) (w w' : World)

/-- What an upload from one world to another leaves at a site is not part of something. -/
inductive Whole (site : Site) : Prop where
  | same (h : w'.content? site = w.content? site)
  | stored {e : Step} {c : Content} (he : e ∈ u.steps s r w) (hkey : s.KeyAt w' e.key site)
      (hread : e.world.volume.readFile e.source = .ok c) (h : w'.content? site = some c)
  | discarded (hu : u.Discards) (hsite : s.BundleAt r w site) (h : w'.content? site = none)

/-- A copy to a site of a folder may leave what falls short of the source; a bucket copies nothing
by parts. -/
def Short (e : Step) : Site → Content → Prop
  | .file q, part =>
    match s with
    | .folder _ => e.world.volume.Short e.source q part
    | .bucket _ => False
  | .object .., _ => False

/-- A source of the site was opened, and what is left at the site falls short of it. -/
def Cut (site : Site) (part : Content) : Prop :=
  w'.content? site = some part ∧
    ∃ e ∈ u.steps s r w, s.KeyAt w' e.key site ∧ s.Short e site part

/-! ## What a step leaves -/

/-- Keys lead where they led. -/
def Steady : Prop :=
  match s with
  | .folder _ => Volume.Steady w.volume w'.volume
  | .bucket _ => True

/-- What some steps of an upload leave: a site is as it was, or it is that of a step and holds the
source of it or falls short of it. -/
structure Leaves (steps : List Step) : Prop where
  steady : s.Steady w w'
  fate : ∀ site, w'.content? site = w.content? site ∨
    ∃ e ∈ steps, s.KeyAt w' e.key site ∧ ∃ c, w'.content? site = some c ∧
      (e.world.volume.readFile e.source = .ok c ∨ s.Short e site c)

variable {s r u w w'} {f : Folder} {b : Bucket} {q : Place} {w₁ : World}

theorem Steady.refl (s : Storage) (w : World) : s.Steady w w := by
  cases s with
  | folder f => exact Volume.Steady.refl w.volume
  | bucket b => trivial

theorem Steady.trans (h : s.Steady w w₁) (h' : s.Steady w₁ w') : s.Steady w w' := by
  cases s with
  | folder f => exact Volume.Steady.trans h h'
  | bucket b => trivial

/-- A key leads still to a site at which there is something. -/
theorem Steady.keyAt {key : String} {site : Site} {c : Content} (h : s.Steady w w')
    (hkey : s.KeyAt w key site) (hc : w'.content? site = some c) : s.KeyAt w' key site := by
  cases site with
  | object store p => exact hkey
  | file q =>
    cases s with
    | bucket b => exact hkey
    | folder f =>
      obtain ⟨mode, hface⟩ := World.content?_file_eq_some.mp hc
      exact Volume.Leads.steady hkey h hface

theorem Leaves.refl (s : Storage) (w : World) : Leaves s w w [] :=
  ⟨.refl s w, fun _ => .inl rfl⟩

/-- What is left by some steps is as the later ones leave it. -/
theorem Leaves.trans {es es' : List Step} (h : Leaves s w w₁ es) (h' : Leaves s w₁ w' es') :
    Leaves s w w' (es ++ es') := by
  refine ⟨h.steady.trans h'.steady, fun site => ?_⟩
  obtain hsame | ⟨e, he, hleft⟩ := h'.fate site
  · obtain hsame' | ⟨e, he, hkey, c, hc, hleft⟩ := h.fate site
    · exact .inl (hsame.trans hsame')
    · have hc' := hsame.trans hc
      exact .inr ⟨e, List.mem_append_left _ he, h'.steady.keyAt hkey hc', c, hc', hleft⟩
  · exact .inr ⟨e, List.mem_append_right _ he, hleft⟩

/-- What is left by a copy in a folder. -/
theorem leaves_of_copies (e : Step) (hstores : World.SameStores e.world w')
    (h : Volume.Copies e.world.volume e.source (f.pathOf e.key) w'.volume) :
    Leaves (.folder f) e.world w' [e] := by
  refine ⟨h.toSteady, fun site => ?_⟩
  cases site with
  | object store p => exact .inl (hstores.content? store p)
  | file q =>
    obtain hsame | ⟨hdest, mode, c, hface, hleft⟩ := h.fate q
    · exact .inl (World.content?_file_congr hsame)
    · exact .inr ⟨e, List.mem_singleton_self e, hdest, c,
        World.content?_file_eq_some.mpr ⟨mode, hface⟩, hleft⟩

/-- One file of an upload to a folder. -/
theorem leaves_folder {file : SourceFile} {names : List Name}
    (hkey : file.key = Resource.relativeKey names) (w : World) :
    Leaves (.folder f) w (w.perform (handOver (putFile (.folder f) r) [file]).run).2
      [⟨r.stem ++ "/" ++ file.key, file.path, w⟩] := by
  refine leaves_of_copies ⟨r.stem ++ "/" ++ file.key, file.path, w⟩ ?_ ?_ <;>
    rw [World.perform_handOver_singleton] <;> cases hopen : w.volume.openFile file.path
  · rfl
  · exact Folder.putFile_sameStores _ _ _ w
  · exact .of_adds (.refl _ _)
  · dsimp only
    rw [hkey, Folder.pathOf_fileKey]
    exact Folder.copies_of_putFile hopen

/-- What is left by a step in a bucket, which changes only objects. -/
theorem leaves_of_object (e : Step) (hchanges : World.ChangesIn b.store e.world w')
    (h : ∀ p, w'.content? (.object b.store p) = e.world.content? (.object b.store p) ∨
      p = .ofKey e.key ∧ ∃ c, e.world.volume.readFile e.source = .ok c ∧
        w'.content? (.object b.store p) = some c) :
    Leaves (.bucket b) e.world w' [e] := by
  refine ⟨trivial, fun site => ?_⟩
  by_cases hsite : ∃ p, site = .object b.store p
  · obtain ⟨p, rfl⟩ := hsite
    obtain hsame | ⟨hp, c, hread, hc⟩ := h p
    · exact .inl hsame
    · exact .inr ⟨e, List.mem_singleton_self e, ⟨rfl, hp⟩, c, hc, .inl hread⟩
  · exact .inl (hchanges site fun p he => hsite ⟨p, he⟩)

/-- One file of an upload to a bucket. -/
theorem leaves_bucket (file : SourceFile) (w : World) :
    Leaves (.bucket b) w (w.perform (handOver (putFile (.bucket b) r) [file]).run).2
      [⟨r.stem ++ "/" ++ file.key, file.path, w⟩] := by
  refine leaves_of_object ⟨r.stem ++ "/" ++ file.key, file.path, w⟩ ?_ fun p => ?_
  · rw [World.perform_handOver_singleton]
    cases w.volume.openFile file.path with
    | error k => exact Std.Refl.refl w
    | ok h => exact Bucket.putFile_changesIn _ _ h w
  · have hobject := (Bucket.perform_handOver (b := b) r.stem [file] w).1 p
    cases hlast : Bucket.lastAt (b.puts r.stem [file] w) p with
    | none => exact .inl (by rw [hlast] at hobject; exact hobject)
    | some c =>
      rw [hlast] at hobject
      obtain ⟨e, he, rfl, rfl⟩ := Bucket.exists_of_lastAt hlast
      obtain ⟨file', hf, hkey, hread⟩ := Bucket.exists_file_of_mem_puts he
      obtain rfl := List.mem_singleton.mp hf
      exact .inr ⟨congrArg _ hkey, e.2, hread, hobject⟩

/-! ## What an upload leaves -/

/-- File after file, up to the first that fails. -/
theorem leaves_handOver {files : List SourceFile}
    (hstep : ∀ file ∈ files, ∀ w, Leaves s w (w.perform (handOver (s.putFile r) [file]).run).2
      [⟨r.stem ++ "/" ++ file.key, file.path, w⟩]) (w : World) :
    Leaves s w (w.perform (handOver (s.putFile r) files).run).2 (s.stepsOf r files w) := by
  induction files generalizing w with
  | nil => exact .refl s w
  | cons file rest ih =>
    have hfirst := hstep file List.mem_cons_self w
    rw [World.perform_handOver_first, stepsOf]
    rcases hone : w.perform (handOver (s.putFile r) [file]).run with ⟨e | u, w₁⟩ <;>
      rw [hone] at hfirst
    · exact hfirst
    · exact hfirst.trans (ih (fun file' hf => hstep file' (List.mem_cons_of_mem _ hf)) w₁)

theorem leaves_uploadEach (source : Path) (w : World) :
    Leaves s w (w.perform (uploadEach source (s.putFile r)).run).2
      (s.stepsOf r (w.volume.filesIn source) w) := by
  rw [uploadEach_eq]
  obtain ⟨-, hfiles⟩ | ⟨hnil, e, hfiles⟩ := w.perform_sourceFiles source
  · rw [World.perform_bind_of_ok hfiles]
    refine leaves_handOver (fun file hf w => ?_) w
    obtain ⟨names, -, hkey⟩ := exists_names_of_mem_filesIn hf
    cases s with
    | folder f => exact leaves_folder hkey w
    | bucket b => exact leaves_bucket file w
  · rw [World.perform_bind_action, hfiles, hnil]
    exact .refl s w

/-- What an upload leaves, whatever comes of it. -/
theorem leaves_upload (hr : r.check = .ok ()) (s : Storage) (u : Upload) (w : World) :
    Leaves s (u.start s r w) (w.perform (s.upload r u).run).2 (u.steps s r w) := by
  cases s with
  | folder f =>
    cases u with
    | dir source =>
      rw [upload, uploadDir, Folder.uploadDir,
        World.perform_bind_of_ok (World.perform_checkResource hr w),
        World.perform_bind_of_ok (Folder.perform_discardBundle w)]
      exact leaves_uploadEach source _
    | zip bundle =>
      exact leaves_of_copies ⟨r.bundleKey, bundle, w⟩ (Folder.uploadZip_sameStores bundle w)
        (Folder.copies_of_uploadZip hr bundle w)
  | bucket b =>
    cases u with
    | dir source =>
      rw [upload, uploadDir, Bucket.uploadDir,
        World.perform_bind_of_ok (World.perform_checkResource hr w)]
      exact leaves_uploadEach source w
    | zip bundle =>
      refine leaves_of_object ⟨r.bundleKey, bundle, w⟩ (Bucket.uploadZip_changesIn bundle w)
        fun p => ?_
      obtain ⟨-, c, hread, hobjects⟩ | ⟨-, hkeeps⟩ :=
        Bucket.perform_uploadZip (b := b) hr bundle w
      · by_cases hp : p = .ofKey r.bundleKey
        · exact .inr ⟨hp, c, hread, (hobjects p).trans (if_pos hp)⟩
        · exact .inl ((hobjects p).trans (if_neg hp))
      · exact .inl (hkeeps p)

/-- An upload starts with what was there, but for the bundle that it discards. -/
theorem content?_start (s : Storage) (r : Resource) (u : Upload) (w : World) (site : Site) :
    (u.start s r w).content? site = w.content? site ∨
      u.Discards ∧ s.BundleAt r w site ∧ (u.start s r w).content? site = none := by
  cases u with
  | zip bundle => exact .inl rfl
  | dir source =>
    cases s with
    | bucket b => exact .inl rfl
    | folder f =>
      dsimp only [Upload.start]
      cases site with
      | object store p =>
        refine .inl (World.SameStores.content? (w := w) ?_ store p)
        rfl
      | file q =>
        obtain hsame | ⟨hnamed, hnone⟩ := w.content?_without_cases (f.pathOf r.bundleKey) q
        · exact .inl hsame
        · exact .inr ⟨trivial, hnamed, hnone⟩

/-- What an upload leaves at a site is whole, or falls short of a source. -/
theorem whole_or_cut (hr : r.check = .ok ()) (hup : (w.perform (s.upload r u).run).2 = w')
    (site : Site) : s.Whole r u w w' site ∨ ∃ part, s.Cut r u w w' site part := by
  have hleaves := leaves_upload hr s u w
  rw [hup] at hleaves
  obtain hsame | ⟨e, he, hkey, c, hc, hread | hshort⟩ := hleaves.fate site
  · left
    obtain hstart | ⟨hu, hsite, hnone⟩ := content?_start s r u w site
    · exact .same (hsame.trans hstart)
    · exact .discarded hu hsite (hsame.trans hnone)
  · exact .inl (.stored he hkey hread hc)
  · exact .inr ⟨c, hc, e, he, hkey, hshort⟩

/-- **Whatever comes of an upload, all that it leaves is whole just if each site that was cut holds,
all the same, what it held before or what one of its sources held.** -/
theorem upload_whole_iff (hr : r.check = .ok ()) (hup : (w.perform (s.upload r u).run).2 = w') :
    (∀ site, s.Whole r u w w' site) ↔ ∀ site part, s.Cut r u w w' site part →
      w.content? site = some part ∨ ∃ e ∈ u.steps s r w, s.KeyAt w' e.key site ∧
        e.world.volume.readFile e.source = .ok part := by
  constructor
  · rintro hwhole site part ⟨hpart, -⟩
    cases hwhole site with
    | same h => exact .inl (h.symm.trans hpart)
    | stored he hkey hread h =>
      obtain rfl := Option.some.inj (h.symm.trans hpart)
      exact .inr ⟨_, he, hkey, hread⟩
    | discarded _ _ h => exact absurd (h.symm.trans hpart) (by simp)
  · intro hcut site
    obtain hwhole | ⟨part, hsite⟩ := whole_or_cut hr hup site
    · exact hwhole
    obtain h | ⟨e, he, hkey, hread⟩ := hcut site part hsite
    · exact .same (hsite.1.trans h.symm)
    · exact .stored he hkey hread hsite.1

theorem isName_a : IsName "a" := by decide

/-- A file to upload that can be read, and one that fails after two octets; the stored one is
empty. -/
def halfReadSource : World :=
  worldWith
    [(.ofText "a" isName_a, .file 0o644 (.plain [0x31])),
     (.ofText "e" isName_e, @Node.faulty [0x32, 0x33])]
    0o755
    [(.ofText model.treeEntry model.isName_treeEntry, .directory 0o755
       [(.ofText "e" isName_e, .file 0o644 .empty)])]

/-- The site of the file `e` of the tree. -/
def fileSite : Site :=
  .file (treePlace ++ [.ofText "e" isName_e])

/-- The upload has left the first two octets of a file. -/
theorem upload_whole_iff_halfReadSource :
    model.check = .ok () ∧
      (halfReadSource.perform (upload (.folder storeFolder) model (.dir src)).run).1.isOk = false ∧
      ((afterUpload halfReadSource).content? fileSite).map Content.octets = some [0x32, 0x33] ∧
      ((∀ site, Whole (.folder storeFolder) model (.dir src) halfReadSource
          (afterUpload halfReadSource) site) ↔
        ∀ site part, Cut (.folder storeFolder) model (.dir src) halfReadSource
            (afterUpload halfReadSource) site part →
          halfReadSource.content? site = some part ∨
            ∃ e ∈ (Upload.dir src).steps (.folder storeFolder) model halfReadSource,
              KeyAt (.folder storeFolder) (afterUpload halfReadSource) e.key site ∧
                e.world.volume.readFile e.source = .ok part) := by
  have hr : model.check = .ok () := by decide
  exact ⟨hr, by decide +kernel, by decide +kernel, upload_whole_iff hr rfl⟩

/-- The file to upload can be opened, but not read; the stored one holds something. -/
def unreadableSource : World :=
  worldWith [(.ofText "e" isName_e, @Node.faulty [])] 0o755
    [(.ofText model.treeEntry model.isName_treeEntry, .directory 0o755
       [(.ofText "e" isName_e, .file 0o644 (.plain [0x33]))])]

/-- An upload that fails has emptied a file. -/
theorem not_whole_unreadableSource :
    model.check = .ok () ∧
      (unreadableSource.perform (upload (.folder storeFolder) model (.dir src)).run).1.isOk
        = false ∧
      KeyAt (.folder storeFolder) unreadableSource (model.stem ++ "/" ++ "e") fileSite ∧
      ¬ Whole (.folder storeFolder) model (.dir src) unreadableSource (afterUpload unreadableSource)
        fileSite := by
  have hbefore : (unreadableSource.content? fileSite).map Content.isEmpty = some false := by
    decide +kernel
  have hafter : ((afterUpload unreadableSource).content? fileSite).map Content.isEmpty
      = some true := by
    decide +kernel
  have hread : ∀ e ∈ (Upload.dir src).steps (.folder storeFolder) model unreadableSource,
      (e.world.volume.readFile e.source).isOk = false := by
    decide +kernel
  have hopen : unreadableSource.volume.openFile (storeFolder.pathOf (model.stem ++ "/" ++ "e"))
      = .ok (treePlace ++ [.ofText "e" isName_e]) := by
    decide +kernel
  refine ⟨by decide, by decide +kernel, Volume.leads_of_openFile hopen, fun h => ?_⟩
  cases h with
  | same h => exact absurd (hbefore.symm.trans ((congrArg _ h.symm).trans hafter)) (by simp)
  | stored he _ hok _ =>
    have hno := hread _ he
    rw [hok] at hno
    exact absurd hno (by simp [Except.isOk, Except.toBool])
  | discarded _ _ h =>
    rw [h] at hafter
    exact absurd hafter (by simp)

end Storage

end Depot
