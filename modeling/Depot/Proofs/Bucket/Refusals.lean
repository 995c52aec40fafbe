import Depot.Bucket
import Depot.Proofs.Source

/-!
# What a bucket reports when its store refuses a request

* `World.refusals` are the requests to object stores that fail while a procedure runs, each with
  its step and the failure.
* `Action.Reports x`: in every world, the error of `x` tells what was refused. It says that nothing
  is stored just if a store said so that was asked for an object or about one, and any other refusal
  is reported as a failure of the backend.

The rules follow the way in which actions are put together, and the four operations of a bucket
report (`getFile_reports`, `download_reports`, `uploadDir_reports`, `uploadZip_reports`).

Out of scope: a store that answers what is not true.
-/

namespace Depot

/-! ## Requests that are refused -/

/-- The step in which a store refused, and why. -/
abbrev Refusal := StoreStep × StoreError

/-- The refusals that mean that nothing is stored. -/
def Refusal.missing : List Refusal :=
  [(.get, .notFound), (.head, .notFound)]

/-- The refusal in a step that a reply is. -/
def Refusal.ofReply? {α : Type} (step : StoreStep) : Except StoreError α → Option Refusal
  | .ok _ => none
  | .error e => some (step, e)

/-- The refusal that is the reply to a call. -/
def Call.refusal? : (c : Call) → c.Reply → Option Refusal
  | .put .. => Refusal.ofReply? .put
  | .get .. => Refusal.ofReply? .get
  | .body .. => Refusal.ofReply? .body
  | .head .. => Refusal.ofReply? .head
  | .sign .. => Refusal.ofReply? .sign
  | _ => fun _ => none

/-- The refusals that a run meets. -/
def Procedure.refusals {α σ : Type} (answer : (c : Call) → σ → c.Reply × σ) :
    Procedure α → σ → List Refusal
  | .done _, _ => []
  | .ask c next, s =>
    (c.refusal? (answer c s).1).toList ++ (next (answer c s).1).refusals answer (answer c s).2

namespace World

variable {α β : Type}

/-- The refusals that a procedure meets in a world. -/
def refusals (w : World) (p : Procedure α) : List Refusal :=
  p.refusals answer w

@[simp] theorem refusals_done (w : World) (a : α) : w.refusals (.done a) = [] := rfl

@[simp] theorem refusals_ofCall (w : World) (c : Call) :
    w.refusals (.ofCall c) = (c.refusal? (answer c w).1).toList :=
  List.append_nil _

theorem refusals_bind (w : World) (p : Procedure α) (f : α → Procedure β) :
    w.refusals (p.bind f) = w.refusals p ++ (w.perform p).2.refusals (f (w.perform p).1) := by
  unfold refusals perform
  induction p generalizing w with
  | done a => rfl
  | ask c next ih =>
    simp only [Procedure.bind, Procedure.refusals, Procedure.run, ih, List.append_assoc]

end World

/-- A procedure is a request to a store for one step. -/
def Procedure.Asks {α : Type} (step : StoreStep) (p : Procedure (Except StoreError α)) : Prop :=
  ∀ w : World, w.refusals p = (Refusal.ofReply? step (w.perform p).1).toList

/-! ## Errors that report them -/

/-- An error that says that nothing is stored. -/
def IsMissing {α : Type} (r : Except StorageError α) : Prop :=
  ∃ key cause, r = .error (.notFound key cause)

/-- An error that says that the backend failed. -/
def IsFailure {α : Type} (r : Except StorageError α) : Prop :=
  ∃ attempt cause, r = .error (.backend attempt cause)

/-- A result tells which requests were refused. -/
structure Tells {α : Type} (r : Except StorageError α) (refusals : List Refusal) : Prop where
  missing : IsMissing r ↔ ∃ x ∈ refusals, x ∈ Refusal.missing
  failure : ∀ x ∈ refusals, x ∉ Refusal.missing → IsFailure r

/-- In every world, an action tells which requests were refused. -/
def Action.Reports {α : Type} (x : Action α) : Prop :=
  ∀ w : World, Tells (w.perform x.run).1 (w.refusals x.run)

section Rules

variable {α β ε : Type}

theorem Tells.of_nil {r : Except StorageError α} (h : ¬ IsMissing r) : Tells r [] :=
  ⟨iff_of_false h (by simp), by simp⟩

/-- Nothing was refused where an action succeeds. -/
theorem Tells.eq_nil {a : α} {refusals : List Refusal} (h : Tells (.ok a) refusals) :
    refusals = [] := by
  refine List.eq_nil_iff_forall_not_mem.mpr fun x hx => ?_
  by_cases hm : x ∈ Refusal.missing
  · obtain ⟨_, _, he⟩ := h.missing.mpr ⟨x, hx, hm⟩
    exact absurd he (by simp)
  · obtain ⟨_, _, he⟩ := h.failure x hx hm
    exact absurd he (by simp)

theorem Tells.error {e : StorageError} {refusals : List Refusal}
    (h : Tells (.error e : Except StorageError α) refusals) :
    Tells (.error e : Except StorageError β) refusals := by
  refine ⟨Iff.trans ?_ h.missing, fun x hx hm => ?_⟩
  · simp [IsMissing]
  · obtain ⟨attempt, cause, he⟩ := h.failure x hx hm
    exact ⟨attempt, cause, congrArg _ (Except.error.inj he)⟩

namespace Action.Reports

theorem pure (a : α) : Reports (pure a : Action α) :=
  fun _ => .of_nil fun ⟨_, _, h⟩ => nomatch (show Except.ok a = _ from h)

theorem bind {x : Action α} {f : α → Action β} (hx : x.Reports) (hf : ∀ a, (f a).Reports) :
    (x >>= f).Reports := by
  intro w
  rw [Action.run_bind, World.refusals_bind, World.perform_bind]
  have h := hx w
  rcases hr : w.perform x.run with ⟨e | a, w₁⟩ <;> rw [hr] at h
  · exact (List.append_nil _).symm ▸ h.error
  · rw [h.eq_nil]
    exact hf a w₁

/-- A call to a disk is refused by no store. -/
theorem ofReply {fail : ε → StorageError} {p : Procedure (Except ε α)}
    (hp : ∀ w : World, w.refusals p = []) (hfail : ∀ e key cause, fail e ≠ .notFound key cause) :
    (Action.ofReply fail p).Reports := by
  intro w
  change Tells (w.perform (p.bind _)).1 (w.refusals (p.bind _))
  rw [World.refusals_bind, hp, World.refusals_done]
  refine .of_nil ?_
  rintro ⟨key, cause, h⟩
  rw [World.perform_bind] at h
  cases hr : (w.perform p).1 with
  | ok a => rw [hr] at h; exact absurd h (by simp [Except.mapError])
  | error e => rw [hr] at h; exact hfail e key cause (Except.error.inj h)

/-- A request whose failure is told. -/
theorem request {p : Procedure (Except StoreError α)} {step : StoreStep}
    {fail : StoreError → StorageError} (hp : p.Asks step)
    (hmissing : ∀ e, (step, e) ∈ Refusal.missing → ∃ key cause, fail e = .notFound key cause)
    (hfailure : ∀ e, (step, e) ∉ Refusal.missing →
      ∃ attempt cause, fail e = .backend attempt cause) : (Action.ofReply fail p).Reports := by
  intro w
  change Tells (w.perform (p.bind _)).1 (w.refusals (p.bind _))
  rw [World.refusals_bind, World.refusals_done, List.append_nil, World.perform_bind, hp]
  cases (w.perform p).1 with
  | ok a => exact .of_nil fun ⟨_, _, h⟩ => nomatch (show Except.ok a = _ from h)
  | error e =>
    change Tells (.error (fail e)) [(step, e)]
    by_cases he : (step, e) ∈ Refusal.missing
    · obtain ⟨key, cause, hk⟩ := hmissing e he
      exact ⟨iff_of_true ⟨key, cause, congrArg _ hk⟩ ⟨_, List.mem_singleton_self _, he⟩,
        fun x hx hm => absurd (List.mem_singleton.mp hx ▸ he) hm⟩
    · obtain ⟨attempt, cause, hk⟩ := hfailure e he
      refine ⟨iff_of_false ?_ ?_, fun _ _ _ => ⟨attempt, cause, congrArg _ hk⟩⟩
      · rintro ⟨key, cause', h⟩
        exact absurd (hk.symm.trans (Except.error.inj h)) (by simp)
      · rintro ⟨x, hx, hm⟩
        exact he (List.mem_singleton.mp hx ▸ hm)

theorem throw {e : StorageError} (h : ∀ key cause, e ≠ .notFound key cause) :
    Reports (throw e : Action α) :=
  fun _ => .of_nil fun ⟨key, cause, he⟩ => h key cause (Except.error.inj he)

/-- What is concluded from the reply to a call that no store refuses. -/
theorem concluding {c : Call} {f : c.Reply → Except StorageError α}
    (hc : ∀ reply, c.refusal? reply = none) (hf : ∀ reply, ¬ IsMissing (f reply)) :
    Reports (concluding c f) := by
  intro w
  have hrefusals : w.refusals (Action.concluding c f).run = [] := by
    change w.refusals ((Procedure.ofCall c).bind _) = []
    rw [World.refusals_bind, World.refusals_ofCall, hc, World.refusals_done]
    rfl
  rw [hrefusals]
  exact .of_nil (hf _)

/-- What cannot be addressed is not said to be missing. -/
theorem addressed (r : Except Defect α) : (Action.check (r.mapError .invalid)).Reports := by
  refine fun _ => .of_nil ?_
  rintro ⟨_, _, h⟩
  cases r with
  | ok a => exact nomatch (show Except.ok a = _ from h)
  | error d => exact nomatch (show Except.error (StorageError.invalid d) = _ from h)

theorem checkSourceFolder (source : Path) : (checkSourceFolder source).Reports := by
  refine .concluding (fun _ => rfl) fun reply => ?_
  split <;> exact nofun

theorem checkBundleFile (bundle : Path) : (checkBundleFile bundle).Reports := by
  refine .concluding (fun _ => rfl) fun reply => ?_
  split <;> exact nofun

theorem sourceFiles (source : Path) : (sourceFiles source).Reports := by
  refine .bind (checkSourceFolder source) fun _ => ?_
  refine .bind (.ofReply (fun _ => rfl) fun _ _ _ => nofun) fun files => ?_
  split
  · exact throw nofun
  · exact pure _

/-- A file is handed over with success, or its failure is reported. -/
theorem handOver {f : String → Handle → Action Unit} (hf : ∀ key h, (f key h).Reports)
    (files : List SourceFile) : (handOver f files).Reports := by
  induction files with
  | nil => exact pure ()
  | cons file rest ih =>
    refine .bind (.ofReply (fun _ => rfl) fun _ _ => nofun) fun h => ?_
    exact .bind (hf file.key h) fun _ => ih

end Action.Reports

end Rules

/-! ## The operations of a bucket -/

namespace Bucket

variable {b : Bucket} {r : Resource}

/-- A request that is neither for an object nor about one fails as the backend. -/
theorem failed_reports {α : Type} {p : Procedure (Except StoreError α)} {step : StoreStep}
    (hp : p.Asks step) (hstep : ∀ e, (step, e) ∉ Refusal.missing) (name key : String) :
    (Action.ofReply (b.failed name key) p).Reports :=
  .request hp (fun e he => absurd he (hstep e)) fun _ _ => ⟨_, _, rfl⟩

/-- A request for an object or about one may find it missing. -/
theorem missingOrFailed_reports {α : Type} {p : Procedure (Except StoreError α)} {step : StoreStep}
    (hp : p.Asks step) (hstep : (step, .notFound) ∈ Refusal.missing) (name key : String) :
    (Action.ofReply (b.missingOrFailed name key) p).Reports := by
  refine .request hp (fun e he => ?_) fun e he => ?_
  · cases e with
    | notFound => exact ⟨_, _, rfl⟩
    | other => exact absurd he (by simp [Refusal.missing])
  · cases e with
    | notFound => exact absurd hstep he
    | other => exact ⟨_, _, rfl⟩

theorem putKey_reports (key : String) (c : Content) : (b.putKey key c).Reports :=
  failed_reports (fun w => w.refusals_ofCall _) (by simp [Refusal.missing]) _ _

theorem getFile_reports (path : String) : (b.getFile r path).Reports := by
  refine .bind (.addressed r.check) fun _ => ?_
  refine .bind (.addressed (r.fileKey path)) fun key => ?_
  refine .bind (missingOrFailed_reports (fun w => w.refusals_ofCall _)
    (by simp [Refusal.missing]) _ _) fun c => ?_
  exact failed_reports (fun w => w.refusals_ofCall _) (by simp [Refusal.missing]) _ _

theorem download_reports : (b.download r).Reports := by
  refine .bind (.addressed r.check) fun _ => ?_
  refine .bind (missingOrFailed_reports (fun w => w.refusals_ofCall _)
    (by simp [Refusal.missing]) _ _) fun _ => ?_
  refine .bind (failed_reports (fun w => w.refusals_ofCall _)
    (by simp [Refusal.missing]) _ _) fun url => ?_
  exact .pure _

theorem putFile_reports (stem key : String) (file : Handle) : (b.putFile stem key file).Reports :=
  .bind (.ofReply (fun _ => rfl) fun _ _ => nofun) fun c => putKey_reports _ c

theorem uploadDir_reports (source : Path) : (b.uploadDir r source).Reports := by
  refine .bind (.addressed r.check) fun _ => ?_
  rw [uploadEach_eq]
  exact .bind (.sourceFiles source) fun files => .handOver (putFile_reports r.stem) files

theorem uploadZip_reports (bundle : Path) : (b.uploadZip r bundle).Reports := by
  refine .bind (.addressed r.check) fun _ => ?_
  refine .bind (.checkBundleFile bundle) fun _ => ?_
  refine .bind (.bind (.ofReply (fun _ => rfl) fun _ _ => nofun) fun file => ?_) fun c => ?_
  · exact .ofReply (fun _ => rfl) fun _ _ => nofun
  · exact putKey_reports _ c

end Bucket

end Depot
