import Depot.Proofs.Source

/-!
# What an upload hands to a sink

An upload of a folder takes one of a few courses, whatever the sink does
(`uploadTree_iff_delivery`):

* the folder is refused, and the sink is not called (`SourceRefusal`),
* all files are handed over, in the order in which they are collected,
* the files before one are handed over, and this one cannot be opened or the sink refuses it.

`Handed` follows the files that are handed over, with the calls that are made and with the states of
the sink. The course determines the result, the state that the sink is left in, the world, and all
calls: nothing is done about a later file, and nothing is taken back.

This is `upload_tree` with any `FileSink`.
-/

namespace Depot

variable {σ : Type} {sink : Sink σ} {source : Path} {w w' : World} {s s' : σ}
  {file : SourceFile} {files rest : List SourceFile} {calls : List Call} {e : StorageError}

/-! ## Files that are handed over -/

/-- Files are opened and handed to a sink one after the other, each with success; it begins in one
world and one state of the sink and ends in others, and makes some calls. -/
inductive Handed (sink : Sink σ) :
    List SourceFile → World → σ → List Call → World → σ → Prop where
  | nil (w : World) (s : σ) : Handed sink [] w s [] w s
  | cons {file : SourceFile} {rest : List SourceFile} {h : Handle} {w w₁ w' : World} {s s₁ s' : σ}
      {calls : List Call} (hopen : w.volume.openFile file.path = .ok h)
      (hput : w.perform (sink file.key h s) = ((.ok (), s₁), w₁))
      (hrest : Handed sink rest w₁ s₁ calls w' s') :
      Handed sink (file :: rest) w s
        (.openFile file.path :: w.calls (sink file.key h s) ++ calls) w' s'

/-- The file comes that cannot be opened. -/
theorem putAll_of_unopened (sink : Sink σ) (rest : List SourceFile) (s : σ) {k : IoKind}
    (hopen : w.volume.openFile file.path = .error k) :
    w.perform (putAll sink (file :: rest) s) = ((.error (.system (.openFile file.path) k), s), w) ∧
      w.calls (putAll sink (file :: rest) s) = [.openFile file.path] := by
  constructor
  · refine (World.perform_openFile w file.path _).trans ?_
    rw [hopen]
    rfl
  · refine (World.calls_bind w (Procedure.ofCall (.openFile file.path)) _).trans ?_
    rw [World.calls_ofCall, World.perform_ofCall, World.answer, hopen]
    rfl

/-- A file that is opened goes to the sink. -/
theorem putAll_of_openFile (sink : Sink σ) (rest : List SourceFile) (s : σ) {h : Handle}
    (hopen : w.volume.openFile file.path = .ok h) :
    w.perform (putAll sink (file :: rest) s) = (match w.perform (sink file.key h s) with
      | ((.error e, s₁), w₁) => ((.error e, s₁), w₁)
      | ((.ok (), s₁), w₁) => w₁.perform (putAll sink rest s₁)) ∧
      w.calls (putAll sink (file :: rest) s)
        = .openFile file.path :: w.calls (sink file.key h s) ++
          match w.perform (sink file.key h s) with
          | ((.error _, _), _) => []
          | ((.ok (), s₁), w₁) => w₁.calls (putAll sink rest s₁) := by
  constructor
  · refine (World.perform_openFile w file.path _).trans ?_
    rw [hopen]
    refine (World.perform_bind w (sink file.key h s) _).trans ?_
    rcases w.perform (sink file.key h s) with ⟨⟨e | u, s₁⟩, w₁⟩ <;> rfl
  · refine (World.calls_bind w (Procedure.ofCall (.openFile file.path)) _).trans ?_
    rw [World.calls_ofCall, World.perform_ofCall, World.answer, hopen]
    refine congrArg (.openFile file.path :: ·) ((World.calls_bind w (sink file.key h s) _).trans ?_)
    rcases w.perform (sink file.key h s) with ⟨⟨e | u, s₁⟩, w₁⟩ <;> rfl

/-- The files that are handed over come first, and it goes on where they leave off. -/
theorem Handed.putAll_append {done : List SourceFile} (h : Handed sink done w s calls w' s')
    (rest : List SourceFile) :
    w.perform (putAll sink (done ++ rest) s) = w'.perform (putAll sink rest s') ∧
      w.calls (putAll sink (done ++ rest) s) = calls ++ w'.calls (putAll sink rest s') := by
  induction h with
  | nil => exact ⟨rfl, rfl⟩
  | cons hopen hput _ ih =>
    obtain ⟨hperform, hcalls⟩ := putAll_of_openFile sink (_ ++ rest) _ hopen
    rw [hput] at hperform hcalls
    refine ⟨hperform.trans ih.1, hcalls.trans ?_⟩
    dsimp only
    rw [ih.2, List.append_assoc]

/-- Either all files are handed over, or all before the first that cannot be opened or that the sink
refuses. -/
theorem exists_handed (sink : Sink σ) (files : List SourceFile) (w : World) (s : σ) :
    (∃ calls w' s', Handed sink files w s calls w' s') ∨
      ∃ done file rest calls w₁ s₁, files = done ++ file :: rest ∧
        Handed sink done w s calls w₁ s₁ ∧
        ((∃ k, w₁.volume.openFile file.path = .error k) ∨
          ∃ h e s' w', w₁.volume.openFile file.path = .ok h ∧
            w₁.perform (sink file.key h s₁) = ((.error e, s'), w')) := by
  induction files generalizing w s with
  | nil => exact .inl ⟨[], w, s, .nil w s⟩
  | cons file rest ih =>
    rcases hopen : w.volume.openFile file.path with k | h
    · exact .inr ⟨[], file, rest, [], w, s, rfl, .nil w s, .inl ⟨k, hopen⟩⟩
    rcases hput : w.perform (sink file.key h s) with ⟨⟨e | u, s₁⟩, w₁⟩
    · exact .inr ⟨[], file, rest, [], w, s, rfl, .nil w s, .inr ⟨h, e, s₁, w₁, hopen, hput⟩⟩
    · obtain ⟨calls, w', s', hall⟩ | ⟨done, next, more, calls, w₂, s₂, rfl, hdone, hstop⟩ :=
        ih w₁ s₁
      · exact .inl ⟨_, w', s', .cons hopen hput hall⟩
      · exact .inr
          ⟨file :: done, next, more, _, w₂, s₂, rfl, .cons hopen hput hdone, hstop⟩

/-! ## Folders that are refused -/

/-- Why a folder is refused before the sink sees anything, and by which calls that is found out. -/
inductive SourceRefusal (v : Volume) (source : Path) : StorageError → List Call → Prop where
  | missing (hstat : v.stat source = .error .notFound) :
      SourceRefusal v source (.sourceNotFound source) [.stat source]
  | hidden {k : IoKind} (hstat : v.stat source = .error k) (hk : k ≠ .notFound) :
      SourceRefusal v source (.system (.stat source) k) [.stat source]
  | noFolder {kind : FileKind} (hstat : v.stat source = .ok kind) (hkind : kind ≠ .directory) :
      SourceRefusal v source (.sourceFile source) [.stat source]
  | unwalked {k : IoKind} (hstat : v.stat source = .ok .directory)
      (hwalk : v.walk source = .error k) :
      SourceRefusal v source (.backend (.walk source) (some (.walk k))) [.stat source, .walk source]
  | empty (hstat : v.stat source = .ok .directory) (hwalk : v.walk source = .ok []) :
      SourceRefusal v source (.sourceEmpty source) [.stat source, .walk source]

theorem calls_checkSourceFolder (w : World) (source : Path) :
    w.calls (checkSourceFolder source).run = [.stat source] := by
  exact w.calls_concluding _ _

theorem calls_collect (w : World) (source : Path) :
    w.calls (collect source).run = [.walk source] := rfl

theorem perform_checkSourceFolder (hdir : w.volume.stat source = .ok .directory) :
    w.perform (checkSourceFolder source).run = (.ok (), w) := by
  rw [checkSourceFolder, World.perform_concluding, World.answer, hdir]

theorem sourceFiles_of_refusal (h : SourceRefusal w.volume source e calls) :
    w.perform (sourceFiles source).run = (.error e, w) ∧
      w.calls (sourceFiles source).run = calls := by
  -- what is no folder is refused by the check, what is one by its files
  have hcheck (hrun : w.perform (checkSourceFolder source).run = (.error e, w)) :
      w.perform (sourceFiles source).run = (.error e, w) ∧
        w.calls (sourceFiles source).run = [.stat source] := by
    rw [sourceFiles, World.perform_bind_action, World.calls_bind_action, hrun,
      calls_checkSourceFolder]
    exact ⟨rfl, rfl⟩
  cases h with
  | missing hstat =>
    refine hcheck ?_
    rw [checkSourceFolder, World.perform_concluding, World.answer, hstat]
  | hidden hstat hk =>
    refine hcheck ?_
    rw [checkSourceFolder, World.perform_concluding, World.answer, hstat]
    dsimp only
    split
    · next he => exact absurd he (by simp)
    · next he => exact absurd he (by simp)
    · next he => exact absurd (Except.error.inj he) hk
    · next he => exact Except.error.inj he ▸ rfl
  | noFolder hstat hkind =>
    refine hcheck ?_
    rw [checkSourceFolder, World.perform_concluding, World.answer, hstat]
    dsimp only
    split
    · next he => exact absurd (Except.ok.inj he) hkind
    · rfl
    · next he => exact absurd he (by simp)
    · next he => exact absurd he (by simp)
  | unwalked hstat hwalk | empty hstat hwalk =>
    have hcollect : w.perform (collect source).run
        = (((w.volume.walk source).map fun fs => fs.map SourceFile.ofFound).mapError
          fun k => .backend (.walk source) (some (.walk k)), w) := rfl
    rw [hwalk] at hcollect
    rw [sourceFiles, World.perform_bind_of_ok (perform_checkSourceFolder hstat),
      World.calls_bind_action, perform_checkSourceFolder hstat, calls_checkSourceFolder]
    dsimp only
    rw [World.perform_bind_action, World.calls_bind_action, hcollect, calls_collect]
    exact ⟨rfl, rfl⟩

theorem sourceFiles_of_collect (hdir : w.volume.stat source = .ok .directory)
    (hfiles : w.perform (collect source).run = (.ok files, w)) (hne : files ≠ []) :
    w.perform (sourceFiles source).run = (.ok files, w) ∧
      w.calls (sourceFiles source).run = [.stat source, .walk source] := by
  obtain ⟨file, rest, rfl⟩ := List.exists_cons_of_ne_nil hne
  rw [sourceFiles, World.perform_bind_of_ok (perform_checkSourceFolder hdir),
    World.calls_bind_action, perform_checkSourceFolder hdir, calls_checkSourceFolder]
  dsimp only
  rw [World.perform_bind_action, World.calls_bind_action, hfiles, calls_collect]
  exact ⟨rfl, rfl⟩

/-- A folder is refused, or its files are collected. -/
theorem refusal_or_collect (w : World) (source : Path) :
    (∃ e calls, SourceRefusal w.volume source e calls) ∨
      w.volume.stat source = .ok .directory ∧ ∃ files, files ≠ [] ∧
        w.perform (collect source).run = (.ok files, w) := by
  rcases hstat : w.volume.stat source with k | kind
  · by_cases hk : k = .notFound
    · exact .inl ⟨_, _, .missing (hk ▸ hstat)⟩
    · exact .inl ⟨_, _, .hidden hstat hk⟩
  by_cases hkind : kind = .directory
  · subst hkind
    rcases hwalk : w.volume.walk source with k | found
    · exact .inl ⟨_, _, .unwalked hstat hwalk⟩
    cases found with
    | nil => exact .inl ⟨_, _, .empty hstat hwalk⟩
    | cons f found =>
      exact .inr ⟨rfl, _, List.cons_ne_nil _ _, collect_eq_ok.mpr ⟨⟨_, hwalk, rfl⟩, rfl⟩⟩
  · exact .inl ⟨_, _, .noFolder hstat hkind⟩

/-! ## The courses of an upload -/

/-- The courses that an upload of a folder takes: from a world and a state of the sink to a result,
the state of the sink and the world afterwards, with all calls. -/
inductive Delivery (source : Path) (sink : Sink σ) (w : World) (s : σ) :
    (Except StorageError Nat × σ) × World → List Call → Prop where
  /-- The folder is refused. -/
  | refused {e : StorageError} {calls : List Call}
      (hrefusal : SourceRefusal w.volume source e calls) :
      Delivery source sink w s ((.error e, s), w) calls
  /-- All files are handed over. -/
  | finished {files : List SourceFile} {calls : List Call} {w' : World} {s' : σ}
      (hdir : w.volume.stat source = .ok .directory)
      (hfiles : w.perform (collect source).run = (.ok files, w)) (hne : files ≠ [])
      (hall : Handed sink files w s calls w' s') :
      Delivery source sink w s ((.ok files.length, s'), w')
        ([.stat source, .walk source] ++ calls)
  /-- A file cannot be opened. -/
  | unopened {done rest : List SourceFile} {file : SourceFile} {calls : List Call} {w' : World}
      {s' : σ} {k : IoKind} (hdir : w.volume.stat source = .ok .directory)
      (hfiles : w.perform (collect source).run = (.ok (done ++ file :: rest), w))
      (hdone : Handed sink done w s calls w' s')
      (hopen : w'.volume.openFile file.path = .error k) :
      Delivery source sink w s ((.error (.system (.openFile file.path) k), s'), w')
        ([.stat source, .walk source] ++ (calls ++ [.openFile file.path]))
  /-- The sink refuses a file. -/
  | unput {done rest : List SourceFile} {file : SourceFile} {calls : List Call} {h : Handle}
      {e : StorageError} {w₁ w' : World} {s₁ s' : σ}
      (hdir : w.volume.stat source = .ok .directory)
      (hfiles : w.perform (collect source).run = (.ok (done ++ file :: rest), w))
      (hdone : Handed sink done w s calls w₁ s₁)
      (hopen : w₁.volume.openFile file.path = .ok h)
      (hput : w₁.perform (sink file.key h s₁) = ((.error e, s'), w')) :
      Delivery source sink w s ((.error e, s'), w')
        ([.stat source, .walk source] ++
          (calls ++ .openFile file.path :: w₁.calls (sink file.key h s₁)))

theorem uploadTree_of_error
    (h : w.perform (sourceFiles source).run = (.error e, w) ∧
      w.calls (sourceFiles source).run = calls) :
    w.perform (uploadTree source sink s) = ((.error e, s), w) ∧
      w.calls (uploadTree source sink s) = calls := by
  constructor
  · refine (World.perform_bind w (sourceFiles source).run _).trans ?_
    rw [h.1]
    rfl
  · refine (World.calls_bind w (sourceFiles source).run _).trans ?_
    rw [h.1, h.2]
    exact List.append_nil _

/-- The files that are collected are put one after the other. -/
theorem uploadTree_of_collect (sink : Sink σ) (s : σ)
    (hdir : w.volume.stat source = .ok .directory)
    (hfiles : w.perform (collect source).run = (.ok files, w)) (hne : files ≠ []) :
    w.perform (uploadTree source sink s) = (match w.perform (putAll sink files s) with
      | ((.error e, s'), w') => ((.error e, s'), w')
      | ((.ok (), s'), w') => ((.ok files.length, s'), w')) ∧
      w.calls (uploadTree source sink s)
        = [.stat source, .walk source] ++ w.calls (putAll sink files s) := by
  obtain ⟨hrun, hmade⟩ := sourceFiles_of_collect hdir hfiles hne
  constructor
  · refine (World.perform_bind w (sourceFiles source).run _).trans ?_
    rw [hrun]
    refine (World.perform_bind w (putAll sink files s) _).trans ?_
    rcases w.perform (putAll sink files s) with ⟨⟨e | u, s'⟩, w'⟩ <;> rfl
  · refine (World.calls_bind w (sourceFiles source).run _).trans ?_
    rw [hrun, hmade]
    refine congrArg (_ ++ ·) ((World.calls_bind w (putAll sink files s) _).trans ?_)
    rcases w.perform (putAll sink files s) with ⟨⟨e | u, s'⟩, w'⟩ <;> exact List.append_nil _

/-- An upload takes each course that there is. -/
theorem Delivery.eq {r : (Except StorageError Nat × σ) × World}
    (h : Delivery source sink w s r calls) :
    w.perform (uploadTree source sink s) = r ∧ w.calls (uploadTree source sink s) = calls := by
  cases h with
  | refused hrefusal => exact uploadTree_of_error (sourceFiles_of_refusal hrefusal)
  | finished hdir hfiles hne hall =>
    obtain ⟨hperform, hcalls⟩ := uploadTree_of_collect sink s hdir hfiles hne
    obtain ⟨hput, hmade⟩ := hall.putAll_append []
    rw [List.append_nil] at hput hmade
    rw [hperform, hcalls, hput, hmade]
    exact ⟨rfl, congrArg (_ ++ ·) (List.append_nil _)⟩
  | unopened hdir hfiles hdone hopen =>
    obtain ⟨hperform, hcalls⟩ := uploadTree_of_collect sink s hdir hfiles (by simp)
    obtain ⟨hput, hmade⟩ := hdone.putAll_append (_ :: _)
    obtain ⟨hstop, hlast⟩ := putAll_of_unopened sink _ _ hopen
    rw [hperform, hcalls, hput, hmade, hstop, hlast]
    exact ⟨rfl, rfl⟩
  | unput hdir hfiles hdone hopen hrefused =>
    obtain ⟨hperform, hcalls⟩ := uploadTree_of_collect sink s hdir hfiles (by simp)
    obtain ⟨hput, hmade⟩ := hdone.putAll_append (_ :: _)
    obtain ⟨hstop, hlast⟩ := putAll_of_openFile sink _ _ hopen
    rw [hrefused] at hstop hlast
    rw [hperform, hcalls, hput, hmade, hstop, hlast]
    exact ⟨rfl, congrArg (fun more => _ ++ (_ ++ more)) (List.append_nil _)⟩

/-- There is a course for every upload. -/
theorem exists_delivery (source : Path) (sink : Sink σ) (w : World) (s : σ) :
    ∃ r calls, Delivery source sink w s r calls := by
  obtain ⟨e, calls, hrefusal⟩ | ⟨hdir, files, hne, hfiles⟩ := refusal_or_collect w source
  · exact ⟨_, _, .refused hrefusal⟩
  obtain ⟨calls, w', s', hall⟩ |
    ⟨done, file, rest, calls, w₁, s₁, rfl, hdone, ⟨k, hopen⟩ | ⟨h, e, s', w', hopen, hput⟩⟩ :=
    exists_handed sink files w s
  · exact ⟨_, _, .finished hdir hfiles hne hall⟩
  · exact ⟨_, _, .unopened hdir hfiles hdone hopen⟩
  · exact ⟨_, _, .unput hdir hfiles hdone hopen hput⟩

/-- **An upload of a folder refuses the folder before the sink is called, or hands the files that it
collects to the sink, in order and one after the other, up to the first that cannot be opened or
that the sink refuses.** That decides the result, which is the number of the files if all are handed
over, the state of the sink, the world, and all calls that are made. -/
theorem uploadTree_iff_delivery (source : Path) (sink : Sink σ) (w : World) (s : σ)
    (r : (Except StorageError Nat × σ) × World) (calls : List Call) :
    w.perform (uploadTree source sink s) = r ∧ w.calls (uploadTree source sink s) = calls ↔
      Delivery source sink w s r calls := by
  constructor
  · rintro ⟨rfl, rfl⟩
    obtain ⟨r, calls, hdelivery⟩ := exists_delivery source sink w s
    obtain ⟨rfl, rfl⟩ := hdelivery.eq
    exact hdelivery
  · exact Delivery.eq

end Depot
