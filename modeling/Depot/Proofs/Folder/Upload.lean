import Depot.Folder
import Depot.Proofs.Source
import Depot.Proofs.Volume.Walk

/-!
# What an upload leaves in a folder

An upload to a folder discards the bundle of the resource and then stores one file after the other:

* `Volume.Stores` is what storing one file does. The content of the open file is put at the place to
  which the path of the key leads, and no other place changes, but for directories on the way.
* `Volume.without` is what discarding does, whether the system lets the bundle be removed or not.
  The bundle is gone if its directory may be changed (`face?_without_ne_file`), nothing else is
  (`spares_without`), and a walk finds the files that it found before (`walk_without`).
* `Folder.Fills` is the run over all files. If their places are different and none is that of a
  source, every file holds at the end what its source held at first (`Fills.read`,
  `Fills.stored`), and the other places are as before (`Fills.spares`).

These are `put_file` of `LocalSink`, `discard_bundle`, and `upload_dir` where it succeeds.
-/

namespace Depot

open Volume

/-! ## One file -/

namespace Volume

variable {v v' : Volume} {path : Path} {source p q : Place} {c : Content}

/-- The content `c` of the open file `source` is put into the file to which a path leads, at the
place `p`; directories are made on the way. Nothing is said of what is read where the open file is
the one that is stored, which is emptied first, and nothing is stored in a file whose content cannot
be reached. -/
structure Stores (v : Volume) (path : Path) (source p : Place) (c : Content) (v' : Volume) : Prop
    extends Spares (· = p) v v' where
  found : ∃ s, v'.find .create path = .ok s ∧ s.place = p
  read : source ≠ p → ∃ mode, v.face? source = some (.file mode c)
  stored : (∀ given, v.face? p ≠ some (.faulty given)) → ∃ mode, v'.face? p = some (.file mode c) ∧
    ((∀ old c', v.face? p = some (.file old c') → old.reads = true) → mode.reads = true)

theorem Stores.of_puts {v₁ : Volume} (hdirs : Adds v v₁)
    (hfound : ∃ s, v₁.find .create path = .ok s ∧ s.place = p)
    (hread : source ≠ p → ∃ mode, v.face? source = some (.file mode c)) {mode : Mode}
    (hputs : Puts v₁ p (some (.file mode c)) v')
    (hold : ∀ fc, v₁.face? p = some fc → ∃ old c', fc = .file old c')
    (hreads : (∀ old c', v₁.face? p = some (.file old c') → old.reads = true) →
      mode.reads = true) : Stores v path source p c v' := by
  have hspares : Spares (· = p) v₁ v' := hputs.spares rfl
    (fun old ho => let ⟨_, _, he⟩ := hold old ho; he ▸ trivial)
    fun new hn => Option.some.inj hn ▸ trivial
  obtain ⟨s, hs, hp⟩ := hfound
  refine ⟨(hdirs.mono fun _ => False.elim).trans hspares, ⟨_, hspares.find hs, hp⟩, hread, ?_⟩
  intro _
  refine ⟨mode, hputs.face?_self, fun hr => hreads fun old c' ho => ?_⟩
  exact hr old c' ((hdirs.face?_file id).mp ho)

theorem stores_of_calls {v₁ v₂ : Volume} (hdirs : Adds v v₁)
    (hcreate : v₁.create path = .ok (p, v₂)) (hread : v₂.readAt source = .ok c)
    (hwrite : v₂.writeAt p c = (.ok (), v')) : Stores v path source p c v' := by
  obtain ⟨hfound, hsame⟩ := find_of_createWith hcreate
  have hread' : source ≠ p → ∃ mode, v.face? source = some (.file mode c) := by
    intro hne
    obtain ⟨mode, hm⟩ := readAt_eq_ok.mp hread
    rw [hsame source hne] at hm
    exact ⟨mode, (hdirs.face?_file id).mp hm⟩
  have hcases := puts_of_create hcreate c
  rw [arriving_of_writeAt (congrArg Prod.fst hwrite), hwrite] at hcases
  obtain ⟨mode, hputs, hold, hreads⟩ | ⟨⟨given, hfaulty⟩, rfl⟩ := hcases
  · exact .of_puts hdirs hfound hread' hputs hold hreads
  · have hp := (hdirs.new p id _ hfaulty).resolve_right fun ⟨_, _, hd⟩ => absurd hd (by simp)
    exact ⟨hdirs.mono fun _ => False.elim, hfound, hread', fun h => absurd hp (h given)⟩

end Volume

/-! ## The bundle that is discarded -/

/-- What a file or a directory looks like. -/
def Face.IsPlain : Face → Prop
  | .file .. | .directory _ => True
  | _ => False

namespace Volume

variable {v : Volume} {path : Path} {q : Place}

/-- A path names an entry, which may be missing. -/
def Names (v : Volume) (path : Path) (p : Place) : Prop :=
  ∃ s, v.find .keep path = .ok s ∧ s.place = p

theorem names_iff : v.Names path q ↔ (v.find .keep path).map Spot.place = .ok q := by
  unfold Names
  cases v.find .keep path with
  | error k => simp [Except.map]
  | ok s => simp [Except.map]

instance : Decidable (v.Names path q) :=
  decidable_of_iff _ names_iff.symm

theorem Names.inj {p : Place} (hp : v.Names path p) (hq : v.Names path q) : p = q :=
  Except.ok.inj ((names_iff.mp hp).symm.trans (names_iff.mp hq))

/-- A volume after an attempt to remove what a path names. -/
def without (v : Volume) (path : Path) : Volume :=
  match v.remove path with
  | .ok v' => v'
  | .error _ => v

theorem without_cases (v : Volume) (path : Path) : v.without path = v ∨
    ∃ d n node, v.find .keep path = .ok ⟨d, some n, some node, false⟩ ∧ v.canChange d = true ∧
      node.isDirectory = false ∧ v.modify d (Node.erase n) = v.without path := by
  unfold without
  split
  · next v' h => exact .inr (remove_eq_ok.mp h)
  · exact .inl rfl

theorem here_without (v : Volume) (path : Path) : (v.without path).here = v.here := by
  obtain h | ⟨d, n, node, -, -, -, h⟩ := v.without_cases path
  · rw [h]
  · rw [← h]
    rfl

/-- Elsewhere everything stays. -/
theorem face?_without (hq : ¬ v.Names path q) : (v.without path).face? q = v.face? q := by
  obtain h | ⟨d, n, node, hs, hchange, hdir, h⟩ := v.without_cases path
  · rw [h]
  · exact h ▸ (puts_remove hs hchange hdir).face?_of_ne q fun he => hq ⟨_, hs, he.symm⟩

/-- Nothing is new. -/
theorem face?_of_without {fc : Face} (h : (v.without path).face? q = some fc) :
    v.face? q = some fc := by
  by_cases hq : v.Names path q
  · obtain hv | ⟨d, n, node, hs, hchange, hdir, hv⟩ := v.without_cases path
    · rwa [hv] at h
    · obtain ⟨s, hs', rfl⟩ := hq
      obtain rfl := Except.ok.inj (hs.symm.trans hs')
      have hnone := (puts_remove hs hchange hdir).face?_self
      rw [hv] at hnone
      exact absurd (hnone.symm.trans h) (by simp)
  · rwa [face?_without hq] at h

/-- What is removed is gone, and nothing else. -/
theorem face?_without_cases (v : Volume) (path : Path) (q : Place) :
    (v.without path).face? q = v.face? q ∨ v.Names path q ∧ (v.without path).face? q = none := by
  cases h : (v.without path).face? q with
  | some fc => exact .inl (face?_of_without h).symm
  | none =>
    by_cases hq : v.Names path q
    · exact .inr ⟨hq, rfl⟩
    · exact .inl (h.symm.trans (face?_without hq))

/-- Lookups lead where they did if no link is removed. -/
theorem steady_without (hplain : ∀ p target, v.Names path p → v.face? p ≠ some (.link target)) :
    Steady v (v.without path) := by
  obtain h | ⟨d, n, node, hs, hchange, hdir, h⟩ := v.without_cases path
  · rw [h]
    exact .refl v
  · rw [← h]
    refine (puts_remove hs hchange hdir).steady (fun old ho => ?_) fun new hn => absurd hn (by simp)
    have hface : v.face? (d ++ [n]) = some node.face :=
      face?_eq_some.mpr ⟨node, (sound_of_find hs).get?_place rfl, rfl⟩
    obtain rfl := Option.some.inj (hface.symm.trans ho)
    cases node with
    | directory => exact absurd hdir (by simp [Node.isDirectory])
    | link target => exact absurd hface (hplain _ target ⟨_, hs, rfl⟩)
    | _ => trivial

/-- Nothing else changes, be it removed or not, if it is no link. -/
theorem spares_without {K : Place → Prop} (hK : ∀ p, v.Names path p → K p)
    (hplain : ∀ p target, v.Names path p → v.face? p ≠ some (.link target)) :
    Spares K v (v.without path) :=
  ⟨steady_without hplain, fun q hq _ h => (face?_without fun hn => hq (hK q hn)).trans h,
    fun _ _ _ h => .inl (face?_of_without h)⟩

/-- What is no directory is gone if its directory may be changed. -/
theorem face?_without_self {s : Spot} {n : Name} (hs : v.find .keep path = .ok s)
    (hn : s.name = some n) (hclosed : s.closed = false) (hchange : v.canChange s.directory = true)
    (hdir : ∀ mode, v.face? s.place ≠ some (.directory mode)) :
    (v.without path).face? s.place = none := by
  cases hface : v.face? s.place with
  | none =>
    refine Option.eq_none_iff_forall_ne_some.mpr fun fc hfc => ?_
    exact absurd (hface.symm.trans (face?_of_without hfc)) (by simp)
  | some fc =>
    obtain ⟨x, hx, rfl⟩ := face?_eq_some.mp hface
    have hnode : s.node = some x := (sound_of_find hs).node.trans hx
    have hxdir : x.isDirectory = false := by
      refine Bool.eq_false_iff.mpr fun hd => ?_
      obtain ⟨mode, hmode⟩ := isDirectory_iff.mp hd
      exact hdir mode (hmode ▸ hface)
    obtain ⟨d, name, node, closed⟩ := s
    cases hn
    cases hclosed
    cases hnode
    rw [without, remove_eq_ok.mpr ⟨d, n, x, hs, hchange, hxdir, rfl⟩]
    exact (puts_remove hs hchange hxdir).face?_self

/-- A file is gone if its directory may be changed. -/
theorem face?_without_ne_file {s : Spot} {n : Name} (hs : v.find .keep path = .ok s)
    (hn : s.name = some n) (hclosed : s.closed = false) (hchange : v.canChange s.directory = true)
    (mode : Mode) (c : Content) : (v.without path).face? s.place ≠ some (.file mode c) := by
  intro h
  have hface := face?_of_without h
  have hnone := face?_without_self hs hn hclosed hchange fun mode' hd =>
    absurd (hface.symm.trans hd) (by simp)
  exact absurd (hnone.symm.trans h) (by simp)

/-- A walk finds what it found if nothing led to what is removed. -/
theorem walk_without {p : Path} {fs fs' : List Found} {node : Node}
    (hplain : ∀ p fc, v.Names path p → v.face? p = some fc → fc.IsPlain)
    (hd : node.isDirectory = true) (hp : (v.without path).existing .follow p = .ok (q, node))
    (h : v.walk p = .ok fs) (h' : (v.without path).walk p = .ok fs')
    (hout : ∀ f ∈ fs, ∃ r, v.Leads f.path r ∧ ¬ v.Names path r) : fs' = fs := by
  obtain hv | ⟨d, n, x, hs, hchange, hdir, hv⟩ := v.without_cases path
  · rw [hv] at h'
    exact Except.ok.inj (h'.symm.trans h)
  · have hface : v.face? (d ++ [n]) = some x.face :=
      face?_eq_some.mpr ⟨x, (sound_of_find hs).get?_place rfl, rfl⟩
    obtain ⟨mode, c, rfl⟩ : ∃ mode c, x = .file mode c := by
      have hx := hplain _ _ ⟨_, hs, rfl⟩ hface
      cases x with
      | file mode c => exact ⟨mode, c, rfl⟩
      | directory mode entries => exact absurd hdir (by simp [Node.isDirectory])
      | _ => exact hx.elim
    refine walk_of_remove hs hchange hv hd hp h h' ?_
    intro f hf
    obtain ⟨r, hr, hnot⟩ := hout f hf
    exact ⟨r, hr, fun he => hnot ⟨_, hs, he.symm⟩⟩

end Volume

theorem World.after_remove (w : World) (path : Path) :
    (answer (.remove path) w).2 = { w with volume := w.volume.without path } := by
  rw [answer_remove]
  unfold changing without
  cases w.volume.remove path with
  | error k => rfl
  | ok v => rfl

namespace Folder

variable {f : Folder} {r : Resource} {w w' : World} {root : Path} {key : String} {file : Handle}

theorem perform_discardBundle (w : World) : w.perform (f.discardBundle r).run
    = (.ok (), { w with volume := w.volume.without (f.pathOf r.bundleKey) }) := by
  rw [discardBundle, World.perform_bind_of_ok (World.perform_ofProcedure w _),
    World.perform_ofCall, World.after_remove]
  rfl

theorem adds_makeParent {p : Path} (h : w.perform (makeParent p).run = (.ok (), w')) :
    ∃ v, Adds w.volume v ∧ w' = { w with volume := v } := by
  unfold makeParent at h
  split at h
  · next parent _ =>
    have hcall : w.left (w.volume.makeDirectories parent) = (.ok (), w') :=
      World.perform_ofReply_eq_ok.mp h
    exact ⟨_, adds_makeDirectories w.volume parent, (Prod.mk.inj hcall).2.symm⟩
  · exact ⟨w.volume, .refl _ _, (Prod.mk.inj h).2.symm⟩

/-- The calls of a file that is put: directories are made, and then the file is made or emptied and
copied to. -/
theorem calls_of_putFile (h : w.perform (putFile root key file).run = (.ok (), w')) :
    ∃ v₁ v₂ p c, Adds w.volume v₁ ∧ v₁.create (root.join (.ofString key)) = .ok (p, v₂) ∧
      v₂.readAt file = .ok c ∧
      ∃ v₃, v₂.writeAt p c = (.ok (), v₃) ∧ w' = { w with volume := v₃ } := by
  obtain ⟨⟨⟩, w₁, hparent, h⟩ := World.perform_bind_eq_ok.mp h
  obtain ⟨v₁, hdirs, rfl⟩ := adds_makeParent hparent
  obtain ⟨out, w₂, hout, h⟩ := World.perform_bind_eq_ok.mp h
  obtain ⟨v₂, hcreate, rfl⟩ := World.answer_create_eq_ok.mp (World.perform_ofReply_eq_ok.mp hout)
  obtain ⟨v₃, hcopy, rfl⟩ := World.left_eq_ok.mp (World.perform_ofReply_eq_ok.mp h)
  obtain ⟨c, hread, hwrite⟩ := copyAt_eq_ok.mp hcopy
  exact ⟨v₁, v₂, out, c, hdirs, hcreate, hread, v₃, hwrite, rfl⟩

/-- A file that is put is stored at the path of its key. -/
theorem stores_of_putFile (h : w.perform (putFile root key file).run = (.ok (), w')) :
    ∃ v p c, Stores w.volume (root.join (.ofString key)) file p c v ∧
      w' = { w with volume := v } := by
  obtain ⟨v₁, v₂, p, c, hdirs, hcreate, hread, v₃, hwrite, rfl⟩ := calls_of_putFile h
  exact ⟨v₃, p, c, stores_of_calls hdirs hcreate hread hwrite, rfl⟩

/-! ## File after file -/

/-- A file that is stored: what it is uploaded from, its place and its content. -/
structure Deposit where
  file : SourceFile
  place : Place
  content : Content

/-- Files are opened and stored below a root one after the other. -/
inductive Fills (root : Path) : List Deposit → Volume → Volume → Prop where
  | nil (v : Volume) : Fills root [] v v
  | cons {d : Deposit} {ds : List Deposit} {source : Place} {v v₁ v' : Volume}
      (hopen : v.openFile d.file.path = .ok source)
      (hstore : Stores v (root.join (.ofString d.file.key)) source d.place d.content v₁)
      (hrest : Fills root ds v₁ v') : Fills root (d :: ds) v v'

theorem fills_of_uploads {files : List SourceFile} (h : Uploads (putFile root) files w w') :
    ∃ ds v, ds.map Deposit.file = files ∧ Fills root ds w.volume v ∧
      w' = { w with volume := v } := by
  induction h with
  | nil w => exact ⟨[], w.volume, rfl, .nil _, rfl⟩
  | @cons file rest source w w₁ w' hopen hput hrest ih =>
    obtain ⟨v₁, p, c, hstore, rfl⟩ := stores_of_putFile hput
    obtain ⟨ds, v, hfiles, hfills, rfl⟩ := ih
    exact ⟨⟨file, p, c⟩ :: ds, v, by rw [List.map_cons, hfiles], .cons hopen hstore hfills, rfl⟩

namespace Fills

variable {ds : List Deposit} {v v' : Volume}

/-- The places of other files are spared. -/
theorem spares (h : Fills root ds v v') : Spares (fun p => ∃ d ∈ ds, p = d.place) v v' := by
  induction h with
  | nil v => exact .refl _ v
  | cons _ hstore _ ih =>
    refine (hstore.toSpares.mono ?_).trans (ih.mono ?_)
    · intro p hp
      exact ⟨_, List.mem_cons_self, hp⟩
    · rintro p ⟨d, hd, hp⟩
      exact ⟨d, List.mem_cons_of_mem _ hd, hp⟩

/-- Every file is where the path of its key leads. -/
theorem found (h : Fills root ds v v') : ∀ d ∈ ds,
    ∃ s, v'.find .create (root.join (.ofString d.file.key)) = .ok s ∧ s.place = d.place := by
  induction h with
  | nil v =>
    intro d hd
    exact absurd hd List.not_mem_nil
  | cons _ hstore hrest ih =>
    intro d hd
    rcases List.mem_cons.mp hd with rfl | hd
    · obtain ⟨s, hs, hp⟩ := hstore.found
      exact ⟨_, hrest.spares.find hs, hp⟩
    · exact ih d hd

/-- The contents are those that the sources had at first, if no source is a place to store to. -/
theorem read (h : Fills root ds v v')
    (hsource : ∀ d ∈ ds, ∃ q, v.Leads d.file.path q ∧ ∀ e ∈ ds, q ≠ e.place) :
    ∀ d ∈ ds, v.readFile d.file.path = .ok d.content := by
  induction h with
  | nil v =>
    intro d hd
    exact absurd hd List.not_mem_nil
  | @cons d ds source v v₁ v' hopen hstore hrest ih =>
    intro e he
    obtain ⟨q, hq, hout⟩ := hsource e he
    have hqd := hout d List.mem_cons_self
    rcases List.mem_cons.mp he with rfl | he
    · obtain rfl := hq.inj (leads_of_openFile hopen)
      obtain ⟨mode, hface⟩ := hstore.read hqd
      exact bind_eq_ok.mpr ⟨q, hopen, readAt_eq_ok.mpr ⟨mode, hface⟩⟩
    · refine (hstore.toSpares.readFile_eq_ok hq hqd).mp (ih ?_ e he)
      intro e he
      obtain ⟨q, hq, hout⟩ := hsource e (List.mem_cons_of_mem _ he)
      exact ⟨q, hstore.toSpares.leads hq (hout d List.mem_cons_self),
        fun e' he' => hout e' (List.mem_cons_of_mem _ he')⟩

/-- The last file at a place is stored there, and may be read if what was there at first could
be. -/
theorem last {pre post : List Deposit} {d : Deposit} (h : Fills root (pre ++ d :: post) v v')
    (hlast : ∀ e ∈ post, e.place ≠ d.place)
    (hplain : ∀ given, v.face? d.place ≠ some (.faulty given)) :
    ∃ mode, v'.face? d.place = some (.file mode d.content) ∧
      ((∀ old c, v.face? d.place = some (.file old c) → old.reads = true) →
        mode.reads = true) := by
  induction pre generalizing v with
  | nil =>
    cases h with
    | cons _ hstore hrest =>
      -- the files that follow are stored elsewhere
      obtain ⟨mode, hface, hreads⟩ := hstore.stored hplain
      refine ⟨mode, (hrest.spares.face?_file ?_).mpr hface, hreads⟩
      rintro ⟨e, he, hp⟩
      exact hlast e he hp.symm
  | cons e pre ih =>
    cases h with
    | @cons _ _ source _ v₁ _ _ hstore hrest =>
      by_cases he : d.place = e.place
      · rw [he] at hplain
        obtain ⟨mode₁, hface₁, hreads₁⟩ := hstore.stored hplain
        rw [← he] at hface₁ hreads₁
        obtain ⟨mode, hface, hreads⟩ := ih hrest (by simp [hface₁])
        refine ⟨mode, hface, fun hold => hreads fun old c hc => ?_⟩
        obtain ⟨rfl, -⟩ := Face.file.inj (Option.some.inj (hface₁.symm.trans hc))
        exact hreads₁ hold
      · have hplain₁ : ∀ given, v₁.face? d.place ≠ some (.faulty given) := by
          intro given hf
          obtain hf | ⟨-, mode, hm⟩ := hstore.new _ he _ hf
          · exact hplain given hf
          · exact absurd hm (by simp)
        obtain ⟨mode, hface, hreads⟩ := ih hrest hplain₁
        refine ⟨mode, hface, fun hold => hreads fun old c hc => hold old c ?_⟩
        exact (hstore.toSpares.face?_file he).mp hc

/-- Files at different places are stored, and may be read if what was there at first could be. -/
theorem stored (h : Fills root ds v v') (hplaces : (ds.map Deposit.place).Nodup)
    (hplain : ∀ d ∈ ds, ∀ given, v.face? d.place ≠ some (.faulty given)) :
    ∀ d ∈ ds, ∃ mode, v'.face? d.place = some (.file mode d.content) ∧
      ((∀ old c, v.face? d.place = some (.file old c) → old.reads = true) →
        mode.reads = true) := by
  intro d hd
  obtain ⟨pre, post, rfl⟩ := List.append_of_mem hd
  rw [List.map_append, List.map_cons] at hplaces
  have hnodup := (List.nodup_append.mp hplaces).2.1
  refine h.last (fun e he hp => ?_) (hplain d hd)
  exact (List.nodup_cons.mp hnodup).1 (hp ▸ List.mem_map_of_mem he)

end Fills

end Folder

end Depot
