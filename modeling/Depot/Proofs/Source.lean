import Depot.Proofs.Procedure
import Depot.Proofs.Volume.Walk
import Depot.Source

/-!
# What an upload of a folder does

* The files that are collected are below the folder, and their keys are names (`collect_confined`).
* `uploadEach_confined`: an upload looks at the folder and at what is below it, and else calls only
  what it calls for one of the files.
* `uploads_of_uploadEach`: an upload that succeeds has opened the files one after the other and has
  handed over each of them (`Uploads`).
* `uploadEach_moves`: whatever comes of an upload, the world has gone from one to the next only by
  what is done for one of the files.
* `uploadEach_eq`: an upload is two actions in a row, one that collects the files and one that hands
  them over (`handOver`).

This is `upload_tree` with a sink that keeps no state.
-/

namespace Depot

variable {P : Call → Prop} {source : Path}

/-- A file to upload is below a folder, and its key spells the names that lead to it. -/
def SourceFile.From (source : Path) (file : SourceFile) : Prop :=
  Path.Inside source file.path ∧ ∃ names, file.key = Resource.relativeKey names

theorem collect_confined (hwalk : P (.walk source)) :
    (collect source).Confined P fun files => ∀ file ∈ files, file.From source := by
  have hfound : (Procedure.ofCall (.walk source)).Confined P fun r =>
      ∀ found, r = .ok found → ∀ f ∈ found, f.Behind [] source :=
    .ofCall hwalk fun w found h => Volume.behind_of_walk (v := w.volume) h
  refine .ofReply (.bind hfound fun r hr => .done fun files h => ?_)
  obtain ⟨found, rfl, rfl⟩ : ∃ found, r = .ok found ∧ found.map SourceFile.ofFound = files := by
    cases r with
    | ok found => exact ⟨found, rfl, Except.ok.inj h⟩
    | error e => exact absurd h (by simp [Except.map])
  intro file hfile
  obtain ⟨f, hf, rfl⟩ := List.mem_map.mp hfile
  obtain ⟨more, -, hpath⟩ := hr found rfl f hf
  have hsteps : f.path.steps = source.steps ++ more.map .name :=
    hpath ▸ source.steps_children more
  exact ⟨⟨more, hsteps⟩, f.names, rfl⟩

theorem checkSourceFolder_confined (hstat : P (.stat source)) :
    (checkSourceFolder source).Confined P fun _ => True :=
  .concluding hstat

theorem sourceFiles_confined (hstat : P (.stat source)) (hwalk : P (.walk source)) :
    (sourceFiles source).Confined P fun files => ∀ file ∈ files, file.From source := by
  refine .bind (checkSourceFolder_confined hstat) fun _ _ => ?_
  refine .bind (collect_confined hwalk) fun files hfiles => ?_
  split
  · exact .throw
  · exact .pure hfiles

theorem putAll_confined {σ : Type} {sink : Sink σ} {files : List SourceFile}
    (hopen : ∀ p, Path.Inside source p → P (.openFile p))
    (hsink : ∀ names h s, (sink (Resource.relativeKey names) h s).Confined P fun _ => True)
    (hfiles : ∀ file ∈ files, file.From source) (s : σ) :
    (putAll sink files s).Confined P fun _ => True := by
  induction files generalizing s with
  | nil => exact .done trivial
  | cons file rest ih =>
    have hrest := fun s => ih (fun f hf => hfiles f (List.mem_cons_of_mem _ hf)) s
    obtain ⟨hpath, names, hkey⟩ := hfiles file List.mem_cons_self
    rw [putAll]
    refine .bind (.call (hopen _ hpath)) fun r _ => ?_
    cases r with
    | error k => exact .done trivial
    | ok h =>
      refine .bind (hkey ▸ hsink names h s) fun r _ => ?_
      obtain ⟨_ | _, s⟩ := r
      · exact .done trivial
      · exact hrest s

theorem uploadTree_confined {σ : Type} {sink : Sink σ} (hstat : P (.stat source))
    (hwalk : P (.walk source)) (hopen : ∀ p, Path.Inside source p → P (.openFile p))
    (hsink : ∀ names h s, (sink (Resource.relativeKey names) h s).Confined P fun _ => True)
    (s : σ) : (uploadTree source sink s).Confined P fun _ => True := by
  refine .bind (sourceFiles_confined hstat hwalk) fun r hr => ?_
  cases r with
  | error e => exact .done trivial
  | ok files =>
    refine .bind (putAll_confined hopen hsink (hr files rfl) s) fun r _ => ?_
    obtain ⟨_ | _, s⟩ := r <;> exact .done trivial

/-- An upload looks at the folder and at what is below it, and else calls what it calls for one of
the files. -/
theorem uploadEach_confined {f : String → Handle → Action Unit} (hstat : P (.stat source))
    (hwalk : P (.walk source)) (hopen : ∀ p, Path.Inside source p → P (.openFile p))
    (hf : ∀ names h, (f (Resource.relativeKey names) h).Confined P fun _ => True) :
    (uploadEach source f).Confined P fun _ => True := by
  refine Procedure.Confined.bind (uploadTree_confined hstat hwalk hopen (fun names h s => ?_) ())
    fun r _ => .done fun _ _ => trivial
  exact .bind (hf names h) fun r _ => .done trivial

/-! ## Uploads that succeed -/

/-- Files are opened and handed over one after the other, each with success. -/
inductive Uploads (f : String → Handle → Action Unit) : List SourceFile → World → World → Prop where
  | nil (w : World) : Uploads f [] w w
  | cons {file : SourceFile} {rest : List SourceFile} {h : Handle} {w w₁ w' : World}
      (hopen : w.volume.openFile file.path = .ok h)
      (hput : w.perform (f file.key h).run = (.ok (), w₁)) (hrest : Uploads f rest w₁ w') :
      Uploads f (file :: rest) w w'

variable {f : String → Handle → Action Unit} {w w' : World}

theorem uploads_of_putAll {files : List SourceFile}
    (h : w.perform (putAll (.ofAction f) files ()) = ((.ok (), ()), w')) :
    Uploads f files w w' := by
  induction files generalizing w with
  | nil =>
    obtain rfl : w = w' := (Prod.mk.inj h).2
    exact .nil w
  | cons file rest ih =>
    rw [putAll] at h
    replace h := (World.perform_openFile w file.path _).symm.trans h
    cases hopen : w.volume.openFile file.path with
    | error k =>
      rw [hopen] at h
      exact absurd (congrArg (·.1.1) h) (by simp [pure])
    | ok handle =>
      rw [hopen] at h
      replace h := (World.perform_bind w (Sink.ofAction f file.key handle ()) _).symm.trans h
      simp only [Sink.ofAction, World.perform_bind, World.perform_done] at h
      rcases hput : w.perform (f file.key handle).run with ⟨e | u, w₁⟩
      · rw [hput] at h
        exact absurd (congrArg (·.1.1) h) (by simp [pure])
      · rw [hput] at h
        exact .cons hopen hput (ih h)

theorem checkSourceFolder_eq_ok (h : w.perform (checkSourceFolder source).run = (.ok (), w')) :
    w.volume.stat source = .ok .directory ∧ w = w' := by
  rw [checkSourceFolder, World.perform_concluding, World.answer, Prod.mk.injEq] at h
  obtain ⟨h, hw⟩ := h
  dsimp only at h
  split at h
  · next hd => exact ⟨hd, hw⟩
  all_goals exact absurd h (by simp)

theorem collect_eq_ok {files : List SourceFile} :
    w.perform (collect source).run = (.ok files, w') ↔
      (∃ found, w.volume.walk source = .ok found ∧ found.map .ofFound = files) ∧ w = w' := by
  refine World.perform_ofReply_eq_ok.trans ?_
  change ((w.volume.walk source).map fun fs => fs.map SourceFile.ofFound, w) = _ ↔ _
  rw [Prod.mk.injEq]
  refine and_congr_left fun _ => ?_
  cases w.volume.walk source <;> simp [Except.map]

theorem sourceFiles_eq_ok {files : List SourceFile}
    (h : w.perform (sourceFiles source).run = (.ok files, w')) :
    w.volume.stat source = .ok .directory ∧ files ≠ [] ∧
      w.perform (collect source).run = (.ok files, w) ∧ w = w' := by
  obtain ⟨⟨⟩, w₁, hcheck, h⟩ := World.perform_bind_eq_ok.mp h
  obtain ⟨hdir, rfl⟩ := checkSourceFolder_eq_ok hcheck
  obtain ⟨files', w₂, hcollect, h⟩ := World.perform_bind_eq_ok.mp h
  obtain ⟨-, rfl⟩ := collect_eq_ok.mp hcollect
  split at h
  · exact nomatch (Prod.mk.inj h).1
  · next hne =>
    obtain ⟨hfiles, rfl⟩ := Prod.mk.inj h
    obtain rfl := Except.ok.inj hfiles
    exact ⟨hdir, hne, hcollect, rfl⟩

/-- An upload that succeeds is one of a folder that holds a file, and has handed over every file
that is collected. -/
theorem uploads_of_uploadEach (h : w.perform (uploadEach source f).run = (.ok (), w')) :
    w.volume.stat source = .ok .directory ∧ ∃ files, files ≠ [] ∧
      w.perform (collect source).run = (.ok files, w) ∧ Uploads f files w w' := by
  replace h := (World.perform_bind w (uploadTree source (.ofAction f) ()) _).symm.trans h
  rcases ht : w.perform (uploadTree source (.ofAction f) ()) with ⟨⟨e | n, u⟩, w₁⟩
  · rw [ht] at h
    exact absurd (congrArg Prod.fst h) (by simp [Except.map])
  rw [ht] at h
  obtain rfl : w₁ = w' := (Prod.mk.inj h).2
  replace ht := (World.perform_bind w (sourceFiles source).run _).symm.trans ht
  rcases hs : w.perform (sourceFiles source).run with ⟨e | files, w₂⟩
  · rw [hs] at ht
    exact absurd (congrArg (·.1.1) ht) (by simp [pure])
  rw [hs] at ht
  obtain ⟨hdir, hne, hcollect, rfl⟩ := sourceFiles_eq_ok hs
  replace ht := (World.perform_bind w (putAll (.ofAction f) files ()) _).symm.trans ht
  rcases hp : w.perform (putAll (.ofAction f) files ()) with ⟨⟨e | u, u'⟩, w₂⟩
  · rw [hp] at ht
    exact absurd (congrArg (·.1.1) ht) (by simp [pure])
  rw [hp] at ht
  obtain rfl : w₂ = w₁ := (Prod.mk.inj ht).2
  exact ⟨hdir, files, hne, hcollect, uploads_of_putAll hp⟩

/-- The keys of a folder's files are made of names, one at least. -/
theorem exists_names_of_collect {files : List SourceFile}
    (hdir : w.volume.stat source = .ok .directory)
    (hfiles : w.perform (collect source).run = (.ok files, w)) :
    ∀ file ∈ files, ∃ names, names ≠ [] ∧ file.key = Resource.relativeKey names := by
  obtain ⟨⟨found, hwalk, rfl⟩, -⟩ := collect_eq_ok.mp hfiles
  obtain ⟨p, node, hn, hnode⟩ := Volume.exists_of_stat hdir
  intro file hf
  obtain ⟨x, hx, rfl⟩ := List.mem_map.mp hf
  exact ⟨x.names, Volume.names_ne_nil_of_walk hnode hn hwalk x hx, rfl⟩

/-! ## What an upload does to a world -/

section Moves

variable {R : World → World → Prop} [IsPreorder World R]

theorem checkSourceFolder_moves : (checkSourceFolder source).Moves R :=
  .concluding _ fun w => Std.Refl.refl w

theorem checkBundleFile_moves {bundle : Path} : (checkBundleFile bundle).Moves R :=
  .concluding _ fun w => Std.Refl.refl w

theorem sourceFiles_moves : (sourceFiles source).Moves R := by
  refine .bind checkSourceFolder_moves fun _ => ?_
  refine .bind (.ofReply (.bind (.call fun w => Std.Refl.refl w) fun _ => .done _)) fun files => ?_
  split
  · exact .throw _
  · exact .pure _

theorem putAll_moves {files : List SourceFile}
    (hf : ∀ file ∈ files, ∀ h, (f file.key h).Moves R) :
    (putAll (.ofAction f) files ()).Moves R := by
  induction files with
  | nil => exact .done _
  | cons file rest ih =>
    rw [putAll]
    refine .bind (.call fun w => Std.Refl.refl w) fun r => ?_
    cases r with
    | error k => exact .done _
    | ok h =>
      refine .bind (.bind (hf file List.mem_cons_self h) fun _ => .done _) fun r => ?_
      obtain ⟨_ | _, s⟩ := r
      · exact .done _
      · exact ih fun file hm => hf file (List.mem_cons_of_mem _ hm)

/-- An upload does to a world what it does for one of the files. -/
theorem uploadEach_moves
    (hf : ∀ names, names ≠ [] → ∀ h, (f (Resource.relativeKey names) h).Moves R) :
    (uploadEach source f).Moves R := by
  refine Procedure.Moves.bind (fun w => ?_) fun _ => .done _
  have hsame : (w.perform (sourceFiles source).run).2 = w := (sourceFiles_moves (R := Eq) w).symm
  change R w (w.perform ((sourceFiles source).run.bind _)).2
  rw [World.perform_bind, hsame]
  rcases hs : w.perform (sourceFiles source).run with ⟨e | files, w₁⟩
  · exact Std.Refl.refl w
  obtain ⟨hdir, -, hcollect, rfl⟩ := sourceFiles_eq_ok hs
  refine Procedure.Moves.bind (putAll_moves fun file hm h => ?_) (fun r => ?_) w
  · obtain ⟨names, hne, hkey⟩ := exists_names_of_collect hdir hcollect file hm
    exact hkey ▸ hf names hne h
  · obtain ⟨_ | _, s⟩ := r <;> exact .done _

end Moves

/-! ## Files one after the other -/

/-- Opens files and hands them to an action, one after the other. -/
def handOver (f : String → Handle → Action Unit) : List SourceFile → Action Unit
  | [] => return ()
  | file :: rest => do
    let h ← Action.trying (.openFile file.path) (.ofCall (.openFile file.path))
    f file.key h
    handOver f rest

theorem putAll_ofAction (f : String → Handle → Action Unit) (files : List SourceFile) :
    putAll (.ofAction f) files () = (handOver f files).run.bind fun r => .done (r, ()) := by
  induction files with
  | nil => rfl
  | cons file rest ih =>
    rw [putAll, handOver]
    refine congrArg (Procedure.ask (.openFile file.path)) (funext fun r => ?_)
    cases r with
    | error k => rfl
    | ok h =>
      change ((f file.key h).run.bind fun r => .done (r, ())).bind _
        = ((f file.key h >>= fun _ => handOver f rest).run).bind _
      rw [Action.run_bind, Procedure.bind_assoc, Procedure.bind_assoc]
      refine congrArg (Procedure.bind _) (funext fun r => ?_)
      cases r with
      | error e => rfl
      | ok u => exact ih

/-- An upload collects the files and hands them over. -/
theorem uploadEach_eq (source : Path) (f : String → Handle → Action Unit) :
    uploadEach source f = sourceFiles source >>= handOver f := by
  change (uploadTree source (.ofAction f) ()).bind _ = (sourceFiles source >>= handOver f).run
  rw [Action.run_bind]
  refine (Procedure.bind_assoc _ _ _).trans (congrArg (Procedure.bind _) (funext fun r => ?_))
  cases r with
  | error e => rfl
  | ok files =>
    change ((putAll (.ofAction f) files ()).bind _).bind _ = _
    rw [putAll_ofAction, Procedure.bind_assoc, Procedure.bind_assoc]
    refine (congrArg (Procedure.bind _) (funext fun r => ?_)).trans (Procedure.bind_done _)
    cases r <;> rfl

theorem World.perform_handOver_cons (w : World) (f : String → Handle → Action Unit)
    (file : SourceFile) (rest : List SourceFile) :
    w.perform (handOver f (file :: rest)).run = match w.volume.openFile file.path with
      | .error k => (.error (.system (.openFile file.path) k), w)
      | .ok h =>
        match w.perform (f file.key h).run with
        | (.ok _, w₁) => w₁.perform (handOver f rest).run
        | (.error e, w₁) => (.error e, w₁) := by
  rw [handOver, perform_bind_action, Action.trying, perform_ofReply, perform_ofCall, answer]
  cases w.volume.openFile file.path with
  | error k => rfl
  | ok h =>
    refine (perform_bind_action w (f file.key h) fun _ => handOver f rest).trans ?_
    dsimp only
    rcases w.perform (f file.key h).run with ⟨e | u, w₁⟩ <;> rfl

theorem World.perform_handOver_singleton (w : World) (f : String → Handle → Action Unit)
    (file : SourceFile) :
    w.perform (handOver f [file]).run = match w.volume.openFile file.path with
      | .error k => (.error (.system (.openFile file.path) k), w)
      | .ok h => w.perform (f file.key h).run := by
  rw [perform_handOver_cons]
  cases w.volume.openFile file.path with
  | error k => rfl
  | ok h =>
    dsimp only
    rcases w.perform (f file.key h).run with ⟨e | u, w₁⟩ <;> rfl

/-- The first file is handed over, and then the others, if that succeeds. -/
theorem World.perform_handOver_first (w : World) (f : String → Handle → Action Unit)
    (file : SourceFile) (rest : List SourceFile) :
    w.perform (handOver f (file :: rest)).run = match w.perform (handOver f [file]).run with
      | (.ok _, w₁) => w₁.perform (handOver f rest).run
      | (.error e, w₁) => (.error e, w₁) := by
  rw [perform_handOver_singleton, perform_handOver_cons]
  cases w.volume.openFile file.path <;> rfl

/-- The files of a folder in the order of a walk. There are none in what is no folder or cannot be
walked. -/
def Volume.filesIn (v : Volume) (source : Path) : List SourceFile :=
  match v.stat source, v.walk source with
  | .ok .directory, .ok found => found.map .ofFound
  | _, _ => []

/-- The files to upload are those of the folder, one at least. -/
theorem World.perform_sourceFiles (w : World) (source : Path) :
    (w.volume.filesIn source ≠ [] ∧
        w.perform (sourceFiles source).run = (.ok (w.volume.filesIn source), w)) ∨
      w.volume.filesIn source = [] ∧ ∃ e, w.perform (sourceFiles source).run = (.error e, w) := by
  unfold Volume.filesIn
  split
  · next found hdir hwalk =>
    have hcheck : w.perform (checkSourceFolder source).run = (.ok (), w) := by
      rw [checkSourceFolder, perform_concluding, answer, hdir]
    have hcollect : w.perform (collect source).run = (.ok (found.map .ofFound), w) :=
      collect_eq_ok.mpr ⟨⟨found, hwalk, rfl⟩, rfl⟩
    rw [sourceFiles, perform_bind_of_ok hcheck, perform_bind_of_ok hcollect]
    cases found with
    | nil => exact .inr ⟨rfl, _, rfl⟩
    | cons f rest => exact .inl ⟨by simp, rfl⟩
  · next hno =>
    refine .inr ⟨rfl, ?_⟩
    have hsame : (w.perform (sourceFiles source).run).2 = w := (sourceFiles_moves (R := Eq) w).symm
    rcases hs : w.perform (sourceFiles source).run with ⟨e | files, w₁⟩
    · exact ⟨e, by rw [← hsame, hs]⟩
    · obtain ⟨hdir, -, hcollect, -⟩ := sourceFiles_eq_ok hs
      obtain ⟨⟨found, hwalk, -⟩, -⟩ := collect_eq_ok.mp hcollect
      exact absurd hwalk (hno found hdir)

theorem exists_names_of_mem_filesIn {v : Volume} {file : SourceFile} (h : file ∈ v.filesIn source) :
    ∃ names, names ≠ [] ∧ file.key = Resource.relativeKey names := by
  unfold Volume.filesIn at h
  split at h
  · next found hdir hwalk =>
    have hcollect : (World.ofVolume v "").perform (collect source).run
        = (.ok (found.map .ofFound), World.ofVolume v "") :=
      collect_eq_ok.mpr ⟨⟨found, hwalk, rfl⟩, rfl⟩
    exact exists_names_of_collect (w := .ofVolume v "") hdir hcollect file h
  · exact absurd h List.not_mem_nil

/-- The bundle to upload has to be a file. -/
theorem World.perform_checkBundleFile (w : World) (bundle : Path) :
    (w.volume.stat bundle = .ok .file ∧ w.perform (checkBundleFile bundle).run = (.ok (), w)) ∨
      w.volume.stat bundle ≠ .ok .file ∧
        w.perform (checkBundleFile bundle).run = (.error (.bundleMissing bundle), w) := by
  rw [checkBundleFile, perform_concluding, answer]
  dsimp only
  split
  · exact .inl ⟨‹_›, rfl⟩
  · exact .inr ⟨‹_›, rfl⟩

end Depot
