import Depot.Bundle
import Depot.Proofs.Folder.Upload
import Mathlib.Data.List.Forall2

/-!
# What making a bundle does

The members of a bundle are read from its files one after the other (`members_eq_ok`): each has the
name, the permissions and the content of its file and is deflated (`Packs`), and no two have one
name. Nothing is written meanwhile. A file is removed again if what is done with it fails
(`perform_removing`).

This is `write_archive` with its clean-up in `zip_dir`; `Bundle.Course` is the course that `zip_dir`
takes.
-/

namespace Depot.Bundle

open Volume

variable {w w' : World} {files : List SourceFile} {taken ms : List (Member Content)}

/-- A member is named and filled as a file is. -/
def Reads (v : Volume) (file : SourceFile) (m : Member Content) : Prop :=
  m.name = file.key ∧ v.readFile file.path = .ok m.content

/-- A member packs the file to which the path of a source leads: it is filled as the file is, has
its permissions, and is deflated. -/
structure Packs (v : Volume) (file : SourceFile) (m : Member Content) : Prop where
  name : m.name = file.key
  method : m.method = .deflated
  packed : ∃ q mode, v.Leads file.path q ∧ v.face? q = some (.file mode m.content) ∧
    mode.reads = true ∧ m.permissions = mode.permissions

theorem Packs.reads {v : Volume} {file : SourceFile} {m : Member Content} (h : Packs v file m) :
    Reads v file m :=
  let ⟨q, mode, hq, hface, hreads, _⟩ := h.packed
  ⟨h.name, readFile_eq_ok.mpr ⟨q, mode, hq, hface, hreads⟩⟩

/-- Members that pack files are named as the files are. -/
theorem names_of_packs {v : Volume} (h : List.Forall₂ (Packs v) files ms) :
    ms.map Member.name = files.map SourceFile.key := by
  induction h with
  | nil => rfl
  | cons hpacks _ ih => rw [List.map_cons, List.map_cons, hpacks.name, ih]

/-- What is packed of an open file. -/
theorem packs_of_openFile {v : Volume} {file : SourceFile} {p : Place} {c : Content}
    (hopen : v.openFile file.path = .ok p) (hread : v.readAt p = .ok c) :
    Packs v file ⟨file.key, .deflated, (v.modeAt p).permissions, c⟩ := by
  obtain ⟨q, mode, hq, hface, hreads⟩ := readFile_eq_ok.mp (bind_eq_ok.mpr ⟨p, hopen, hread⟩)
  obtain rfl := hq.inj (leads_of_openFile hopen)
  exact ⟨rfl, rfl, q, mode, hq, hface, hreads, by rw [modeAt, node?_of_file hface]⟩

theorem members_eq_ok (h : w.perform (members taken files).run = (.ok ms, w')) :
    w = w' ∧ ∃ added, ms = taken ++ added ∧ List.Forall₂ (Packs w.volume) files added ∧
      ((taken.map Member.name).Nodup → (ms.map Member.name).Nodup) := by
  induction files generalizing taken with
  | nil =>
    obtain ⟨hms, rfl⟩ := Prod.mk.inj h
    obtain rfl := Except.ok.inj hms
    exact ⟨rfl, [], (List.append_nil _).symm, .nil, id⟩
  | cons file rest ih =>
    rw [members] at h
    obtain ⟨p, w₁, hcall, h⟩ := World.perform_bind_eq_ok.mp h
    replace hcall : (w.volume.openFile file.path, w) = (.ok p, w₁) :=
      World.perform_ofReply_eq_ok.mp hcall
    obtain ⟨hopen, rfl⟩ := Prod.mk.inj hcall
    obtain ⟨mode, w₂, hcall, h⟩ := World.perform_bind_eq_ok.mp h
    replace hcall : (.ok (w.volume.modeAt p), w) = (Except.ok mode, w₂) := hcall
    obtain ⟨hmode, rfl⟩ := Prod.mk.inj hcall
    obtain rfl := Except.ok.inj hmode
    split at h
    · exact nomatch (Prod.mk.inj h).1
    · next hnew =>
      obtain ⟨c, w₃, hcall, h⟩ := World.perform_bind_eq_ok.mp h
      replace hcall : (w.volume.readAt p, w) = (.ok c, w₃) :=
        World.perform_ofReply_eq_ok.mp hcall
      obtain ⟨hread, rfl⟩ := Prod.mk.inj hcall
      obtain ⟨hw, added, rfl, hpacks, hnodup⟩ := ih h
      refine ⟨hw, _ :: added, by rw [List.append_assoc]; rfl,
        .cons (packs_of_openFile hopen hread) hpacks, fun ht => hnodup ?_⟩
      rw [List.map_append, List.map_singleton, List.nodup_append]
      refine ⟨ht, List.pairwise_singleton _ _, fun name hname other ho he => hnew ?_⟩
      obtain ⟨m, hm, rfl⟩ := List.mem_map.mp hname
      exact List.any_eq_true.mpr ⟨m, hm, beq_iff_eq.mpr (he.trans (List.mem_singleton.mp ho))⟩

theorem members_moves (taken : List (Member Content)) (files : List SourceFile) :
    (members taken files).Moves Eq := by
  induction files generalizing taken with
  | nil => exact .pure _
  | cons file rest ih =>
    rw [members]
    refine .bind (.ofReply (.call fun w => rfl)) fun p => ?_
    refine .bind (fun w => rfl) fun mode => ?_
    split
    · exact .throw _
    · exact .bind (.ofReply (.call fun w => rfl)) fun c => ih _

/-- A file is removed after an action that fails, if the system lets it. -/
theorem perform_removing {α : Type} (path : Path) (action : Action α) (w : World) :
    w.perform (removing path action).run = match w.perform action.run with
      | (.ok a, w₁) => (.ok a, w₁)
      | (.error e, w₁) => (.error e, { w₁ with volume := w₁.volume.without path }) := by
  refine (World.perform_bind w action.run _).trans ?_
  rcases w.perform action.run with ⟨e | a, w₁⟩
  · refine (World.perform_bind_of_ok (World.perform_ofProcedure w₁ _)).trans ?_
    rw [World.perform_ofCall, World.after_remove]
    rfl
  · rfl

/-- Whatever comes of writing an archive, a file is made and filled, be it only in part, or nothing
is done. -/
theorem writeArchive_cases (files : List SourceFile) (path : Path) (w : World) :
    (w.perform (writeArchive files path).run).2 = w ∨
      ∃ t v₁ c, w.volume.create path = .ok (t, v₁) ∧
        (w.perform (writeArchive files path).run).2 = { w with volume := (v₁.writeAt t c).2 } := by
  rw [writeArchive, World.perform_bind_action, Action.trying, World.perform_ofReply,
    World.perform_ofCall, World.answer]
  rcases w.volume.create path with k | ⟨t, v₁⟩
  · exact .inl rfl
  refine .inr ⟨t, v₁, ?_⟩
  dsimp only [Except.mapError]
  rw [World.perform_bind_action]
  have hsame := members_moves [] files { w with volume := v₁ }
  rcases hms : World.perform { w with volume := v₁ } (members [] files).run with ⟨e | ms, w₁⟩ <;>
    rw [hms] at hsame <;> subst hsame
  · exact ⟨.empty, rfl, rfl⟩
  · exact ⟨.ofMembers ms, rfl, rfl⟩

/-- What writing an archive does if it succeeds. -/
theorem writeArchive_eq_ok {path : Path}
    (h : w.perform (writeArchive files path).run = (.ok (), w')) :
    ∃ p v₁ ms v₂, w.volume.create path = .ok (p, v₁) ∧ List.Forall₂ (Packs v₁) files ms ∧
      (ms.map Member.name).Nodup ∧ v₁.writeAt p (.ofMembers ms) = (.ok (), v₂) ∧
      { w with volume := v₂ } = w' := by
  obtain ⟨p, w₁, hcall, h⟩ := World.perform_bind_eq_ok.mp h
  obtain ⟨v₁, hcreate, rfl⟩ :=
    World.answer_create_eq_ok.mp (World.perform_ofReply_eq_ok.mp hcall)
  obtain ⟨ms, w₂, hms, h⟩ := World.perform_bind_eq_ok.mp h
  obtain ⟨rfl, added, hadded, hpacks, hnodup⟩ := members_eq_ok hms
  obtain rfl : ms = added := hadded
  obtain ⟨v₂, hwrite, rfl⟩ := World.left_eq_ok.mp (World.perform_ofReply_eq_ok.mp h)
  exact ⟨p, v₁, ms, v₂, hcreate, hpacks, hnodup List.nodup_nil, hwrite, rfl⟩

/-- The courses that the making of a bundle takes. -/
inductive Course (source dest : Path) (w : World) : Except StorageError Nat × World → Prop where
  /-- The files cannot be listed. -/
  | unlisted (e : StorageError) : Course source dest w (.error e, w)
  /-- The archive cannot be written. -/
  | unwritten {files : List SourceFile} {e : StorageError} {w₁ : World}
      (hfiles : w.perform (collect source).run = (.ok files, w))
      (hwrite : { w with nonces := w.nonces + 1 }.perform
        (writeArchive files (dest.beside (World.nonceDigits w.nonces))).run = (.error e, w₁)) :
      Course source dest w (.error e,
        { w₁ with volume := w₁.volume.without (dest.beside (World.nonceDigits w.nonces)) })
  /-- The archive cannot be moved. -/
  | unmoved {files : List SourceFile} {w₁ : World} (e : StorageError)
      (hfiles : w.perform (collect source).run = (.ok files, w))
      (hwrite : { w with nonces := w.nonces + 1 }.perform
        (writeArchive files (dest.beside (World.nonceDigits w.nonces))).run = (.ok (), w₁)) :
      Course source dest w (.error e,
        { w₁ with volume := w₁.volume.without (dest.beside (World.nonceDigits w.nonces)) })
  | made {files : List SourceFile} {w₁ : World} {v : Volume}
      (hfiles : w.perform (collect source).run = (.ok files, w))
      (hwrite : { w with nonces := w.nonces + 1 }.perform
        (writeArchive files (dest.beside (World.nonceDigits w.nonces))).run = (.ok (), w₁))
      (hmove : w₁.volume.rename (dest.beside (World.nonceDigits w.nonces)) dest = .ok v) :
      Course source dest w (.ok files.length, { w₁ with volume := v })

theorem perform_make (source dest : Path) (w : World) :
    Course source dest w (w.perform (make source dest).run) := by
  rw [make, World.perform_bind_action]
  rcases hfiles : w.perform (collect source).run with ⟨e | files, w₁⟩
  · obtain rfl : w = w₁ := congrArg Prod.snd hfiles
    exact .unlisted e
  obtain rfl : w = w₁ := congrArg Prod.snd hfiles
  dsimp only
  rw [World.perform_bind_action, World.perform_ofProcedure, World.perform_ofCall, World.answer]
  dsimp only
  rw [World.perform_bind_action, perform_removing]
  rcases hwrite : World.perform { w with nonces := w.nonces + 1 }
    (writeArchive files (dest.beside (World.nonceDigits w.nonces))).run with ⟨e | u, w₁⟩
  · exact .unwritten hfiles hwrite
  dsimp only
  rw [World.perform_bind_action, perform_removing, Action.trying, World.perform_ofReply,
    World.perform_ofCall, World.answer]
  rcases hmove : w₁.volume.rename (dest.beside (World.nonceDigits w.nonces)) dest with k | v
  · exact .unmoved _ hfiles hwrite
  · exact .made hfiles hwrite hmove

end Depot.Bundle
