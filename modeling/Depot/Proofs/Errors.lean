import Depot.Proofs.Source
import Depot.Storage

/-!
# Which errors an action fails with

`Action.Fails E x`: in every world, an error of `x` satisfies `E`. The rules follow the way in which
actions are put together. Errors are of three sorts:

* A request is refused for what it says (`StorageError.invalid`).
* A folder or a file to upload is refused for what it is (`StorageError.RefusesFolder`,
  `StorageError.bundleMissing`).
* All else is what was met on a disk or in an object store (`StorageError.Met`).

An operation begins with the checks of the first two sorts; what it does when they have passed fails
only with what it meets (`Folder.putFile_fails`, `Bucket.putFile_fails`, `Bundle.make_fails`).

Out of scope: `Internal`, the error of a task that panicked.
-/

namespace Depot

/-- An error that tells of a disk or of an object store. -/
inductive StorageError.Met : StorageError → Prop where
  | notFound (key : String) (cause : Option Cause) : Met (.notFound key cause)
  | backend (attempt : Attempt) (cause : Option Cause) : Met (.backend attempt cause)

/-- An error that refuses a folder to upload: it is missing, or no folder, or holds no file. -/
inductive StorageError.RefusesFolder : StorageError → Prop where
  | missing (source : Path) : RefusesFolder (.sourceNotFound source)
  | file (source : Path) : RefusesFolder (.sourceFile source)
  | empty (source : Path) : RefusesFolder (.sourceEmpty source)

namespace StorageError

theorem Met.not_refusesFolder {e : StorageError} (h : e.Met) : ¬ e.RefusesFolder := by
  cases h <;> exact nofun

/-- An error that does not call a request invalid. -/
def Addressed (e : StorageError) : Prop :=
  ∀ d, e ≠ .invalid d

theorem Met.addressed {e : StorageError} (h : e.Met) : e.Addressed := by
  cases h <;> exact nofun

theorem RefusesFolder.addressed {e : StorageError} (h : e.RefusesFolder) : e.Addressed := by
  cases h <;> exact nofun

theorem met_ofIo (key : String) (e : IoError) : (ofIo key e).Met := by
  unfold ofIo
  split
  · exact .notFound _ _
  · exact .backend _ _

end StorageError

/-- In every world, an error of an action satisfies `E`. -/
def Action.Fails {α : Type} (E : StorageError → Prop) (x : Action α) : Prop :=
  ∀ (w : World) (e : StorageError), (w.perform x.run).1 = .error e → E e

section Rules

variable {α β ε : Type} {E E' : StorageError → Prop}

namespace Action.Fails

theorem mono {x : Action α} (h : x.Fails E) (hE : ∀ e, E e → E' e) : x.Fails E' :=
  fun w e he => hE e (h w e he)

theorem pure (a : α) : Fails E (pure a : Action α) :=
  fun _ _ h => nomatch (show Except.ok a = _ from h)

theorem throw {e : StorageError} (h : E e) : Fails E (throw e : Action α) :=
  fun _ _ he => Except.error.inj he ▸ h

theorem bind {x : Action α} {f : α → Action β} (hx : x.Fails E) (hf : ∀ a, (f a).Fails E) :
    (x >>= f).Fails E := by
  intro w e he
  rw [World.perform_bind_action] at he
  rcases hr : w.perform x.run with ⟨e' | a, w₁⟩ <;> rw [hr] at he
  · exact hx w e (hr ▸ Except.error.inj he ▸ rfl)
  · exact hf a w₁ e he

theorem ofReply {fail : ε → StorageError} {p : Procedure (Except ε α)} (h : ∀ e, E (fail e)) :
    (Action.ofReply fail p).Fails E := by
  intro w e he
  rw [World.perform_ofReply] at he
  cases hr : (w.perform p).1 with
  | ok a => rw [hr] at he; exact absurd he (by simp [Except.mapError])
  | error k => rw [hr] at he; exact Except.error.inj he ▸ h k

theorem ofProcedure (p : Procedure α) : (Action.ofProcedure p).Fails E := by
  intro w e he
  rw [World.perform_ofProcedure] at he
  exact absurd he (by simp)

theorem tryCatch {x : Action α} {handler : StorageError → Action α} (hx : x.Fails E)
    (hh : ∀ e, E e → (handler e).Fails E) : (tryCatch x handler).Fails E := by
  intro w e he
  change (w.perform (x.run.bind _)).1 = _ at he
  rw [World.perform_bind] at he
  rcases hr : w.perform x.run with ⟨e' | a, w₁⟩ <;> rw [hr] at he
  · exact hh e' (hx w e' (hr ▸ rfl)) w₁ e he
  · exact nomatch (show Except.ok a = _ from he)

theorem check {r : Except StorageError α} (h : ∀ e, r = .error e → E e) :
    (Action.check r).Fails E :=
  fun _ => h

theorem checkResource {r : Resource} (hr : r.check = .ok ()) : (Action.checkResource r).Fails E :=
  check fun e he => by
    rw [hr] at he
    exact nomatch (show Except.ok () = _ from he)

/-- What is concluded from the reply to a call. -/
theorem concluding {c : Call} {f : c.Reply → Except StorageError α}
    (hf : ∀ reply e, f reply = .error e → E e) : (concluding c f).Fails E :=
  fun w => hf (World.answer c w).1

theorem trying (attempt : Attempt) (p : Procedure (Except IoKind α)) :
    (Action.trying attempt p).Fails StorageError.Met :=
  .ofReply fun _ => .backend _ _

theorem handOver {f : String → Handle → Action Unit}
    (hf : ∀ key h, (f key h).Fails StorageError.Met) (files : List SourceFile) :
    (handOver f files).Fails StorageError.Met := by
  induction files with
  | nil => exact pure ()
  | cons file rest ih =>
    exact .bind (.trying _ _) fun h => .bind (hf file.key h) fun _ => ih

end Action.Fails

end Rules

/-! ## Sources that are refused -/

theorem checkSourceFolder_fails (source : Path) :
    (checkSourceFolder source).Fails fun e => e.RefusesFolder ∨ e.Met := by
  refine .concluding fun reply e he => ?_
  split at he
  · exact nomatch he
  · exact Except.error.inj he ▸ .inl (.file source)
  · exact Except.error.inj he ▸ .inl (.missing source)
  · exact Except.error.inj he ▸ .inr (.backend _ _)

theorem collect_fails (source : Path) : (collect source).Fails StorageError.Met :=
  .ofReply fun _ => .backend _ _

theorem sourceFiles_fails (source : Path) :
    (sourceFiles source).Fails fun e => e.RefusesFolder ∨ e.Met := by
  refine .bind (checkSourceFolder_fails source) fun _ => ?_
  refine .bind ((collect_fails source).mono fun _ => .inr) fun files => ?_
  split
  · exact .throw (.inl (.empty source))
  · exact .pure _

theorem checkBundleFile_fails (bundle : Path) :
    (checkBundleFile bundle).Fails fun e => e = .bundleMissing bundle := by
  refine .concluding fun reply e he => ?_
  split at he
  · exact nomatch he
  · exact (Except.error.inj he).symm

/-! ## What fails only with what it meets -/

open StorageError

theorem makeDirectories_fails (p : Path) : (makeDirectories p).Fails Met :=
  .trying _ _

namespace Folder

variable (f : Folder) (r : Resource)

theorem makeParent_fails (p : Path) : (makeParent p).Fails Met := by
  unfold makeParent
  split
  · exact makeDirectories_fails _
  · exact .pure ()

theorem putFile_fails (root : Path) (key : String) (file : Handle) :
    (putFile root key file).Fails Met := by
  refine .bind (makeParent_fails _) fun _ => ?_
  exact .bind (.trying _ _) fun out => .trying _ _

theorem readKey_fails (key : String) : (f.readKey key).Fails Met :=
  .bind (.ofReply fun _ => met_ofIo _ _) fun _ => .ofReply fun _ => met_ofIo _ _

theorem hasKey_fails (key : String) : (f.hasKey key).Fails Met := by
  refine .concluding fun reply e he => ?_
  split at he
  · exact nomatch he
  · exact nomatch he
  · exact Except.error.inj he ▸ met_ofIo _ _

theorem checkTree_fails (key : String) : (f.checkTree key).Fails Met := by
  refine .concluding fun reply e he => ?_
  split at he
  · exact nomatch he
  · exact Except.error.inj he ▸ .notFound _ _
  · exact Except.error.inj he ▸ met_ofIo _ _

theorem discardBundle_fails : (f.discardBundle r).Fails Met :=
  .bind (.ofProcedure _) fun _ => .pure ()

end Folder

namespace Bundle

theorem members_fails (taken : List (Member Content)) (files : List SourceFile) :
    (members taken files).Fails Met := by
  induction files generalizing taken with
  | nil => exact .pure taken
  | cons file rest ih =>
    refine .bind (.trying _ _) fun h => .bind (.ofProcedure _) fun mode => ?_
    have hrest := fun _ : Unit =>
      Action.Fails.bind (.trying (.compress file.key) (.ofCall (.read h)))
        fun c => ih (taken ++ [⟨file.key, .deflated, Mode.permissions mode, c⟩])
    split
    · exact .bind (.throw (.backend _ _)) hrest
    · exact hrest ()

theorem writeArchive_fails (files : List SourceFile) (path : Path) :
    (writeArchive files path).Fails Met :=
  .bind (.trying _ _) fun _ => .bind (members_fails [] files) fun _ => .trying _ _

theorem removing_fails {α : Type} {E : StorageError → Prop} {action : Action α} (path : Path)
    (h : action.Fails E) : (removing path action).Fails E :=
  .tryCatch h fun _ he => .bind (.ofProcedure _) fun _ => .throw he

theorem make_fails (source dest : Path) : (make source dest).Fails Met := by
  refine .bind (collect_fails source) fun files => .bind (.ofProcedure _) fun nonce => ?_
  refine .bind (removing_fails _ (writeArchive_fails files _)) fun _ => ?_
  exact .bind (removing_fails _ (.trying _ _)) fun _ => .pure _

end Bundle

namespace Bucket

variable (b : Bucket)

theorem missingOrFailed_met (step key : String) (e : StoreError) :
    (b.missingOrFailed step key e).Met := by
  cases e with
  | notFound => exact .notFound _ _
  | other => exact .backend _ _

theorem putKey_fails (key : String) (c : Content) : (b.putKey key c).Fails Met :=
  .ofReply fun _ => .backend _ _

theorem putFile_fails (stem key : String) (file : Handle) : (b.putFile stem key file).Fails Met :=
  .bind (.trying _ _) fun c => b.putKey_fails _ c

theorem readFile_fails (p : Path) : (readFile p).Fails Met :=
  .bind (.trying _ _) fun _ => .trying _ _

end Bucket

end Depot
