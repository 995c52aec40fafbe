import Depot.Proofs.Folder.Place
import Depot.Proofs.Folder.Upload

/-!
# Uploads to a folder that fail

`put_file` of the sink of a folder, and the copy that `upload_zip` makes, write in two steps: the
destination is made or emptied, and then it gets what is read from the source, as far as the one can
be read and the other written. So a copy may stop half-way.

* `Volume.Writes` is what writing to a path does.
* `Volume.Short` are the contents with which a copy falls short of its source: the source was its
  own destination, or could not be read to its end, or not all of it could be written.
* `Volume.Copies`: whatever comes of a copy, each file is as it was, or is at the destination and
  holds all of the source or falls short of it. `Volume.copies_of_copyFile` is the copy of a bundle,
  `Folder.copies_of_putFile` one file of an upload.

Out of scope: what writes to the folder at the same time.
-/

namespace Depot

open Volume

namespace Volume

variable {v v₁ v' : Volume} {path : Path} {source p q : Place} {c : Content} {root : Node}
  {last : Last} {closed : Bool}

/-! ## Paths that are written to -/

/-- No slash follows a name that is made or emptied. -/
theorem closed_of_hop_create {segments : List Segment} {s : Spot} {n : Name}
    (hr : hop root .create closed p segments = .ok (.spot s)) (hn : s.name = some n) :
    s.closed = false := by
  rw [hop_eq_ok] at hr
  induction hr with
  | here hr =>
    cases hr
    exact absurd hn (by simp)
  | name _ ha =>
    obtain ⟨hclosed, -, ⟨_, -, -, hr⟩ | ⟨-, hr⟩⟩ := arrive_eq_ok.mp ha
    · exact absurd hr (by simp [Hop.through])
    · cases hr
      simpa using hclosed
  | link _ _ _ _ hr => exact absurd hr (by simp [Hop.through])
  | stay _ _ ih | up _ _ ih | pass _ _ _ _ _ _ ih => exact ih

theorem closed_of_locate_create {hops : Nat} {segments : List Segment} {s : Spot} {n : Name}
    (hr : locate root .create hops (.onward p segments closed) = .ok s) (hn : s.name = some n) :
    s.closed = false := by
  induction hr using locate_induction with
  | found _ hhop => exact closed_of_hop_create hhop hn
  | onward _ _ _ ih => exact ih

theorem closed_of_find_create {s : Spot} {n : Name} (h : v.find .create path = .ok s)
    (hn : s.name = some n) : s.closed = false :=
  closed_of_locate_create (find_eq_ok.mp h).2 hn

/-- A path is found to name an entry that is made or emptied. -/
def Makes (v : Volume) (path : Path) (p : Place) : Prop :=
  ∃ s n, v.find .create path = .ok s ∧ s.name = some n ∧ s.place = p

theorem Makes.steady (h : v.Makes path p) (hv : Steady v v') : v'.Makes path p := by
  obtain ⟨s, n, hs, hn, hp⟩ := h
  exact ⟨_, n, hv.find hs, hn, hp⟩

theorem Makes.leads (h : v.Makes path p) {fc : Face} (hfc : v.face? p = some fc) :
    v.Leads path p := by
  obtain ⟨s, n, hs, hn, rfl⟩ := h
  obtain ⟨node, hnode, -⟩ := face?_eq_some.mp hfc
  refine ⟨node, existing_eq_ok.mpr ⟨s, find_follow_of_create hs, rfl,
    (sound_of_find hs).node.trans hnode, fun hc => ?_⟩⟩
  exact absurd hc (by simp [closed_of_find_create hs hn])

theorem makes_of_createWith {mode : Mode} (h : v.createWith mode path = .ok (p, v')) :
    v.Makes path p := by
  obtain ⟨s, hs, hp, -⟩ := createWith_eq_ok h
  refine ⟨s, ?_⟩
  unfold createWith at h
  rw [hs] at h
  cases hn : s.name with
  | none => simp [bind, Except.bind, hn] at h
  | some n => exact ⟨n, hs, rfl, hp⟩

/-! ## What is written -/

/-- The file at `p`, to which a path leads, holds the content `c`, and nothing else changes but for
directories that are new. -/
structure Writes (v : Volume) (path : Path) (p : Place) (c : Content) (v' : Volume) : Prop
    extends Spares (· = p) v v' where
  makes : v'.Makes path p
  holds : ∃ mode, v'.face? p = some (.file mode c)

theorem Writes.leads (h : Writes v path p c v') : v'.Leads path p :=
  let ⟨_, hf⟩ := h.holds
  h.makes.leads hf

/-- Opening a file for writing makes or empties one, unless it is a device that fails. -/
theorem writes_of_createWith {mode : Mode} (h : v.createWith mode path = .ok (p, v')) :
    Writes v path p .empty v' ∨ (∃ given, v.face? p = some (.faulty given)) ∧ v' = v := by
  have hmakes := makes_of_createWith h
  obtain ⟨-, -, -, ⟨hnone, hputs⟩ | ⟨_, _, hold, hputs⟩ | hfaulty⟩ := createWith_eq_ok h
  · have hspares : Spares (· = p) v v' := hputs.spares rfl
      (fun old ho => absurd (hnone.symm.trans ho) (by simp))
      fun new hn => Option.some.inj hn ▸ trivial
    exact .inl ⟨hspares, hmakes.steady hspares.toSteady, _, hputs.face?_self⟩
  · have hspares : Spares (· = p) v v' := hputs.spares rfl
      (fun old ho => Option.some.inj (hold.symm.trans ho) ▸ trivial)
      fun new hn => Option.some.inj hn ▸ trivial
    exact .inl ⟨hspares, hmakes.steady hspares.toSteady, _, hputs.face?_self⟩
  · exact .inr hfaulty

theorem Writes.trans {c' : Content} {mode : Mode} (h : Writes v path p c v₁)
    (hp : Puts v₁ p (some (.file mode c')) v') : Writes v path p c' v' := by
  obtain ⟨old, hold⟩ := h.holds
  have hspares : Spares (· = p) v₁ v' := hp.spares rfl
    (fun fc ho => Option.some.inj (hold.symm.trans ho) ▸ trivial)
    fun new hn => Option.some.inj hn ▸ trivial
  exact ⟨h.toSpares.trans hspares, h.makes.steady hspares.toSteady, _, hp.face?_self⟩

/-- A file that was made or emptied holds what arrives of what is written to it. -/
theorem Writes.write (h : Writes v path p .empty v₁) (c : Content) :
    Writes v path p (v₁.arriving c) (v₁.writeAt p c).2 := by
  obtain ⟨mode, hp⟩ := h.holds
  obtain ⟨mode', -, hputs⟩ := puts_writeAt hp c
  exact h.trans hputs

theorem Writes.setMode (h : Writes v path p c v₁) (mode : Mode) :
    ∃ v', v₁.setModeAt p mode = .ok v' ∧ Writes v path p c v' := by
  obtain ⟨old, hp⟩ := h.holds
  obtain ⟨v', hmode, hputs⟩ := exists_setModeAt hp mode
  exact ⟨v', hmode, h.trans hputs⟩

/-! ## What files can hold -/

theorem largest_makeDirectory (h : v.makeDirectory path = .ok v') : v'.largest = v.largest := by
  obtain ⟨s, -, h⟩ := bind_eq_ok.mp h
  split at h
  · unfold addEntry at h
    split at h
    · exact Except.ok.inj h ▸ rfl
    · exact absurd h (by simp)
  · exact absurd h (by simp)

theorem largest_makeFirst (v : Volume) (ps : List Path) :
    (v.makeFirst ps).2.largest = v.largest := by
  induction ps generalizing v with
  | nil => rfl
  | cons p above ih =>
    unfold makeFirst
    split
    · next h => exact largest_makeDirectory h
    · have hv := ih v
      split
      · next h => rw [h] at hv; exact hv
      · next h =>
        rw [h] at hv
        split
        · next h' => exact (largest_makeDirectory h').trans hv
        · exact hv
    · rfl

theorem largest_createWith {mode : Mode} (h : v.createWith mode path = .ok (p, v')) :
    v'.largest = v.largest := by
  obtain ⟨s, -, h⟩ := bind_eq_ok.mp h
  split at h
  · exact absurd h (by simp)
  · exact absurd h (by simp)
  · unfold addEntry at h
    split at h
    · cases h
      rfl
    · exact absurd h (by simp [Functor.map, Except.map])
  · split at h
    · cases h
      rfl
    · exact absurd h (by simp)
  · cases h
    rfl
  · exact absurd h (by simp)
  · exact absurd h (by simp)

theorem largest_setModeAt {mode : Mode} (h : v.setModeAt p mode = .ok v') :
    v'.largest = v.largest := by
  unfold setModeAt at h
  split at h
  · exact absurd h (by simp)
  · exact Except.ok.inj h ▸ rfl

theorem hasRoom_congr (h : v'.largest = v.largest) (c : Content) :
    v'.hasRoom c = v.hasRoom c := by
  rw [hasRoom, hasRoom, h]

theorem arriving_congr (h : v'.largest = v.largest) (c : Content) :
    v'.arriving c = v.arriving c := by
  rw [arriving, arriving, hasRoom_congr h, h]

/-! ## Files that are opened -/

/-- What a node gives when it is read. -/
def givenFace : Option Face → Content × Option IoKind
  | some (.file _ content) => (content, none)
  | some (.directory _) => (.empty, some .isADirectory)
  | some (.faulty given) => (.plain given, some .inputOutput)
  | _ => (.empty, some .notFound)

theorem givenAt_eq (v : Volume) (p : Place) : v.givenAt p = givenFace (v.face? p) := by
  unfold givenAt face? Node.face? node?
  rcases v.root.get? p with _ | (_ | _ | _ | _ | _) <;> rfl

theorem readAt_congr (h : v'.givenAt p = v.givenAt p) : v'.readAt p = v.readAt p := by
  rw [readAt, readAt, h]

/-- Whether a node can be opened for reading. -/
def opensFace : Face → Prop
  | .file mode _ | .directory mode => mode.reads = true
  | .faulty _ => True
  | .link _ | .socket => False

theorem openFile_eq_ok : v.openFile path = .ok p ↔
    v.Leads path p ∧ ∃ fc, v.face? p = some fc ∧ opensFace fc := by
  constructor
  · intro h
    have hl := leads_of_openFile h
    obtain ⟨node, hn⟩ := hl
    refine ⟨⟨node, hn⟩, node.face, face?_eq_some.mpr ⟨node, node?_of_existing hn, rfl⟩, ?_⟩
    rw [openFile, hn] at h
    cases node <;> simp_all [bind, Except.bind, Node.face, opensFace]
  · rintro ⟨⟨node, hn⟩, fc, hfc, ho⟩
    obtain rfl : node.face = fc := Option.some.inj
      ((face?_eq_some.mpr ⟨node, node?_of_existing hn, rfl⟩).symm.trans hfc)
    rw [openFile, hn]
    cases node <;> simp_all [bind, Except.bind, Node.face, opensFace]

/-- What is spared is opened as before. -/
theorem Spares.openFile_eq_ok {K : Place → Prop} (h : Spares K v v') (hl : v.Leads path q)
    (hq : ¬ K q) : v'.openFile path = .ok p ↔ v.openFile path = .ok p := by
  obtain ⟨fc, hfc⟩ := hl.exists_face
  rw [Volume.openFile_eq_ok, Volume.openFile_eq_ok]
  constructor
  · rintro ⟨hp, ho⟩
    obtain rfl := (h.leads hl hq).inj hp
    exact ⟨hl, by rwa [h.kept q hq fc hfc, ← hfc] at ho⟩
  · rintro ⟨hp, ho⟩
    obtain rfl := hl.inj hp
    exact ⟨h.leads hl hq, by rwa [hfc, ← h.kept q hq fc hfc] at ho⟩

/-- What is spared gives as before. -/
theorem Spares.givenAt {K : Place → Prop} (h : Spares K v v') (hl : v.Leads path q) (hq : ¬ K q) :
    v'.givenAt q = v.givenAt q := by
  obtain ⟨fc, hfc⟩ := hl.exists_face
  rw [givenAt_eq, givenAt_eq, hfc, h.kept q hq fc hfc]

/-! ## Copies -/

/-- What a copy of a source leaves at a place if it falls short of the source. -/
inductive Short (v : Volume) (path : Path) (q : Place) : Content → Prop where
  /-- The source was its own destination, and was emptied before it was read. -/
  | own (hopen : v.openFile path = .ok q) : Short v path q .empty
  /-- The source could not be read to its end. -/
  | unread {source : Place} {given : Content} {k : IoKind} (hopen : v.openFile path = .ok source)
      (hread : v.givenAt source = (given, some k)) : Short v path q (v.arriving given)
  /-- Not all of the source could be written. -/
  | unwritten {source : Place} {c : Content} (hopen : v.openFile path = .ok source)
      (hread : v.readAt source = .ok c) (hroom : v.hasRoom c = false) :
      Short v path q (v.arriving c)

/-- What becomes of a volume by a copy, however far it comes: a file is as it was, or the
destination leads to it, and it holds all of the source or falls short of it. -/
structure Copies (v : Volume) (path dest : Path) (v' : Volume) : Prop extends Steady v v' where
  fate : ∀ q, (∀ mode c, v'.face? q = some (.file mode c) ↔ v.face? q = some (.file mode c)) ∨
    v'.Leads dest q ∧ ∃ mode c, v'.face? q = some (.file mode c) ∧
      (v.readFile path = .ok c ∨ Short v path q c)

theorem Copies.of_adds {dest : Path} (h : Adds v v') : Copies v path dest v' :=
  ⟨h.toSteady, fun _ => .inl fun _ _ => h.face?_file id⟩

/-- A source that was there before directories were made is copied as it was. -/
theorem Copies.trans_adds {dest : Path} (hadds : Adds v v₁) (hlargest : v₁.largest = v.largest)
    (hl : v.Leads path source) (h : Copies v₁ path dest v') : Copies v path dest v' := by
  have hgiven := hadds.givenAt hl id
  have hsource : ∀ {p}, v₁.openFile path = .ok p → p = source ∧ v.openFile path = .ok p :=
    fun hp => ⟨(leads_of_openFile hp).inj (hadds.leads hl id), (hadds.openFile_eq_ok hl id).mp hp⟩
  refine ⟨hadds.toSteady.trans h.toSteady, fun q => ?_⟩
  obtain hsame | ⟨hdest, mode, c, hface, hleft⟩ := h.fate q
  · exact .inl fun mode c => (hsame mode c).trans (hadds.face?_file id)
  refine .inr ⟨hdest, mode, c, hface, ?_⟩
  obtain hread | hshort := hleft
  · exact .inl ((hadds.readFile_eq_ok hl id).mp hread)
  · right
    cases hshort with
    | own hopen => exact .own (hsource hopen).2
    | unread hopen hread =>
      obtain ⟨rfl, hopen⟩ := hsource hopen
      exact arriving_congr hlargest _ ▸ .unread hopen (hgiven.symm.trans hread)
    | unwritten hopen hread hroom =>
      obtain ⟨rfl, hopen⟩ := hsource hopen
      exact arriving_congr hlargest _ ▸
        .unwritten hopen ((readAt_congr hgiven).symm.trans hread) (hasRoom_congr hlargest _ ▸ hroom)

/-- The destination was made or emptied, and the source is copied to it. -/
theorem Copies.of_writes {dest : Path} (hopen : v.openFile path = .ok source)
    (hwrite : Writes v dest p .empty v₁) (hlargest : v₁.largest = v.largest) :
    Copies v path dest (v₁.copyAt source p).2 := by
  rw [copyAt_snd]
  have hwrite' := hwrite.write (v₁.givenAt source).1
  refine ⟨hwrite'.toSteady, fun q => ?_⟩
  by_cases hq : q = p
  rotate_left
  · exact .inl fun mode c => hwrite'.toSpares.face?_file hq
  subst hq
  obtain ⟨mode, hface⟩ := hwrite'.holds
  refine .inr ⟨hwrite'.leads, mode, _, hface, ?_⟩
  rw [arriving_congr hlargest]
  by_cases hown : source = q
  · subst hown
    obtain ⟨mode', hempty⟩ := hwrite.holds
    rw [givenAt_eq v₁, hempty, givenFace, arriving_of_hasRoom v.hasRoom_empty]
    exact .inr (.own hopen)
  rw [hwrite.toSpares.givenAt (leads_of_openFile hopen) hown]
  rcases hgiven : v.givenAt source with ⟨c, _ | k⟩
  · have hread : v.readAt source = .ok c := readAt_eq_ok_iff_givenAt.mpr hgiven
    by_cases hroom : v.hasRoom c = true
    · exact .inl ((arriving_of_hasRoom hroom).symm ▸ bind_eq_ok.mpr ⟨source, hopen, hread⟩)
    · exact .inr (.unwritten hopen hread (Bool.eq_false_iff.mpr hroom))
  · exact .inr (.unread hopen hgiven)

/-- The copy of a file with its permissions, however far it comes. -/
theorem copies_of_copyFile (v : Volume) (path dest : Path) :
    Copies v path dest (v.copyFile path dest).2 := by
  unfold copyFile
  split
  · exact .of_adds (.refl _ v)
  next source hopen =>
  dsimp only
  split
  · exact .of_adds (.refl _ v)
  next copy v₁ hcreate =>
  obtain hwrite | ⟨⟨given, hfaulty⟩, rfl⟩ := writes_of_createWith hcreate
  · obtain ⟨v₂, hmode, hwrite'⟩ := hwrite.setMode (v.modeAt source)
    rw [hmode]
    exact .of_writes hopen hwrite' ((largest_setModeAt hmode).trans (largest_createWith hcreate))
  · rw [setModeAt, node?_of_faulty hfaulty]
    exact .of_adds (.refl _ v₁)

end Volume

/-! ## Files of an upload -/

namespace Folder

variable {f : Folder} {w : World} {root path : Path} {key : String} {source : Handle}

theorem adds_of_makeParent (p : Path) (w : World) :
    Adds w.volume (w.perform (makeParent p).run).2.volume := by
  unfold makeParent
  split
  · exact adds_makeDirectories w.volume _
  · exact .refl _ _

theorem largest_of_makeParent (p : Path) (w : World) :
    (w.perform (makeParent p).run).2.volume.largest = w.volume.largest := by
  unfold makeParent
  split
  · exact largest_makeFirst w.volume _
  · rfl

/-- The volume after a file is made or emptied and then filled with what is read. -/
theorem volume_fill (w : World) (path : Path) (source : Handle) :
    (w.perform (ExceptT.run do
      let out ← Action.trying (.create path) (.ofCall (.create path))
      Action.trying (.write path) (.ofCall (.copy source out)))).2.volume
      = match w.volume.create path with
        | .error _ => w.volume
        | .ok (out, v) => (v.copyAt source out).2 := by
  rw [World.perform_bind_action, Action.trying, World.perform_ofReply, World.perform_ofCall,
    World.answer]
  rcases w.volume.create path with k | ⟨out, v⟩ <;> rfl

/-- A file that was opened is copied to where its key leads. -/
theorem copies_of_putFile (hopen : w.volume.openFile path = .ok source) :
    Copies w.volume path (root.join (.ofString key))
      (w.perform (putFile root key source).run).2.volume := by
  have hadds := adds_of_makeParent (root.join (.ofString key)) w
  have hlargest := largest_of_makeParent (root.join (.ofString key)) w
  have hl := leads_of_openFile hopen
  rw [putFile, World.perform_bind_action]
  rcases hparent : w.perform (makeParent (root.join (.ofString key))).run with ⟨e | u, w₁⟩ <;>
    rw [hparent] at hadds hlargest
  · exact .of_adds hadds
  have hopen₁ := (hadds.openFile_eq_ok hl id).mpr hopen
  refine .trans_adds hadds hlargest hl ?_
  dsimp only
  rw [volume_fill]
  rcases hcreate : w₁.volume.create (root.join (.ofString key)) with k | ⟨out, v⟩
  · exact .of_adds (.refl _ _)
  dsimp only
  obtain hwrite | ⟨⟨given, hfaulty⟩, rfl⟩ := writes_of_createWith hcreate
  · exact .of_writes hopen₁ hwrite (largest_createWith hcreate)
  · rw [copyAt_snd, writeAt_faulty hfaulty]
    exact .of_adds (.refl _ _)

/-- The copy of a bundle to where its key leads, if it comes to that. -/
theorem copies_of_uploadZip {r : Resource} (hr : r.check = .ok ()) (bundle : Path) (w : World) :
    Copies w.volume bundle (f.pathOf r.bundleKey)
      (w.perform (f.uploadZip r bundle).run).2.volume := by
  rw [uploadZip, World.perform_bind_of_ok (World.perform_checkResource hr w)]
  obtain ⟨hfile, hcheck⟩ | ⟨-, hcheck⟩ := w.perform_checkBundleFile bundle
  · rw [World.perform_bind_of_ok hcheck, World.perform_bind_action]
    have hadds := adds_of_makeParent (f.pathOf r.bundleKey) w
    have hlargest := largest_of_makeParent (f.pathOf r.bundleKey) w
    rcases hparent : w.perform (makeParent (f.pathOf r.bundleKey)).run with ⟨e | u, w₁⟩ <;>
      rw [hparent] at hadds hlargest
    · exact .of_adds hadds
    · rw [Action.trying]
      dsimp only
      rw [World.perform_ofReply, World.perform_ofCall]
      obtain ⟨⟨p, node⟩, hn, -⟩ := bind_eq_ok.mp hfile
      exact .trans_adds hadds hlargest ⟨node, hn⟩ (copies_of_copyFile _ _ _)
  · rw [World.perform_bind_action, hcheck]
    exact .of_adds (.refl _ _)

end Folder

end Depot
