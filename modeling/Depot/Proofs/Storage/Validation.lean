import Depot.Proofs.Errors
import Depot.Proofs.Resource.FileKey
import Depot.Proofs.Storage.Requests

/-!
# Requests that are refused for what they say

The defects of a resource are looked for in a fixed order, and the first one decides
(`Resource.check_eq`). A request is `Flawed` by that defect, whatever else it says; a request for a
file of a resource without defects is flawed if its path goes up or names nothing.

**`Storage.invalid_iff`**: a folder and a bucket refuse a request as invalid just for its flaw, and
then they have called nothing and changed nothing.

The check is `validate`, which begins all four operations of `ResourceStorage`, and `file_key`.
-/

namespace Depot

open Text

/-! ## The first defect -/

/-- The defects of a resource, in the order in which they are looked for. -/
def Defect.ofResource : List Defect :=
  [.missingOwner, .missingKind, .invalidUuid, .invalidVersion]

theorem Action.run_bind_of_error {α β : Type} {x : Action α} {e : StorageError}
    (h : x.run = .done (.error e)) (f : α → Action β) : (x >>= f).run = .done (.error e) := by
  rw [run_bind, h]
  rfl

theorem Action.run_bind_of_ok {α β : Type} {x : Action α} {a : α} (h : x.run = .done (.ok a))
    (f : α → Action β) : (x >>= f).run = (f a).run := by
  rw [run_bind, h]
  rfl

namespace Resource

/-- Whether a resource has a defect, others aside. -/
def shows (r : Resource) : Defect → Bool
  | .missingOwner => r.owner = ""
  | .missingKind => r.kind = ""
  | .invalidUuid => (Uuid.parse? r.uuid).bind Uuid.version ≠ some Uuid.randomVersion
  | .invalidVersion => r.version = 0
  | .invalidPath => false

/-- The first defect of a resource. -/
def firstDefect? (r : Resource) : Option Defect :=
  Defect.ofResource.find? r.shows

theorem check_eq (r : Resource) : r.check = match r.firstDefect? with
    | some d => .error d
    | none => .ok () := by
  simp only [check, firstDefect?, Defect.ofResource, List.find?, shows]
  by_cases ho : r.owner = ""
  · simp [ho]
  by_cases hk : r.kind = ""
  · simp [ho, hk]
  by_cases hu : (Uuid.parse? r.uuid).bind Uuid.version = some Uuid.randomVersion
  · by_cases hv : r.version = 0 <;> simp [ho, hk, hu, hv]
  · simp [ho, hk, hu]

/-- Of several defects the first one counts. -/
example : firstDefect? ⟨"", "", "", 0⟩ = some .missingOwner := rfl

theorem check_eq_error {r : Resource} {d : Defect} :
    r.check = .error d ↔ r.firstDefect? = some d := by
  rw [check_eq]
  cases r.firstDefect? <;> simp

theorem check_eq_ok_iff {r : Resource} : r.check = .ok () ↔ r.firstDefect? = none := by
  rw [check_eq]
  cases r.firstDefect? <;> simp

end Resource

/-! ## Requests without a flaw -/

theorem Action.Fails.addressed {α : Type} {x : Action α} (h : x.Fails StorageError.Met) :
    x.Fails StorageError.Addressed :=
  h.mono fun _ => StorageError.Met.addressed

section Requests

variable {r : Resource} {path key : String}

theorem checkKey_addressed (hk : r.fileKey path = .ok key) :
    (Action.check ((r.fileKey path).mapError .invalid)).Fails StorageError.Addressed := by
  rw [hk]
  exact .check fun _ => nofun

theorem sourceFiles_addressed (source : Path) :
    (sourceFiles source).Fails StorageError.Addressed :=
  (sourceFiles_fails source).mono fun _ h =>
    h.elim StorageError.RefusesFolder.addressed StorageError.Met.addressed

theorem checkBundleFile_addressed (bundle : Path) :
    (checkBundleFile bundle).Fails StorageError.Addressed := by
  refine (checkBundleFile_fails bundle).mono ?_
  rintro _ rfl
  exact nofun

namespace Folder

variable (f : Folder) (hr : r.check = .ok ())
include hr

theorem getFile_addressed (hk : r.fileKey path = .ok key) :
    (f.getFile r path).Fails StorageError.Addressed := by
  refine .bind (.checkResource hr) fun _ => .bind (checkKey_addressed hk) fun key => ?_
  exact (f.readKey_fails key).addressed

theorem download_addressed : (f.download r).Fails StorageError.Addressed := by
  refine .bind (.checkResource hr) fun _ => .bind (f.hasKey_fails _).addressed fun found => ?_
  split
  · exact .pure _
  · refine .bind (f.checkTree_fails _).addressed fun _ => ?_
    exact .bind (Bundle.make_fails _ _).addressed fun _ => .pure _

theorem uploadDir_addressed (source : Path) :
    (f.uploadDir r source).Fails StorageError.Addressed := by
  refine .bind (.checkResource hr) fun _ => .bind (f.discardBundle_fails r).addressed fun _ => ?_
  rw [uploadEach_eq]
  refine .bind (sourceFiles_addressed source) fun files => ?_
  exact (Action.Fails.handOver (putFile_fails _) files).addressed

theorem uploadZip_addressed (bundle : Path) :
    (f.uploadZip r bundle).Fails StorageError.Addressed := by
  refine .bind (.checkResource hr) fun _ => .bind (checkBundleFile_addressed bundle) fun _ => ?_
  exact .bind (makeParent_fails _).addressed fun _ => (Action.Fails.trying _ _).addressed

end Folder

namespace Bucket

variable (b : Bucket) (hr : r.check = .ok ())
include hr

theorem getFile_addressed (hk : r.fileKey path = .ok key) :
    (b.getFile r path).Fails StorageError.Addressed := by
  refine .bind (.checkResource hr) fun _ => .bind (checkKey_addressed hk) fun key => ?_
  refine .bind (.ofReply fun e => (b.missingOrFailed_met _ _ e).addressed) fun c => ?_
  exact .ofReply fun _ => nofun

theorem download_addressed : (b.download r).Fails StorageError.Addressed := by
  refine .bind (.checkResource hr) fun _ => ?_
  refine .bind (.ofReply fun e => (b.missingOrFailed_met _ _ e).addressed) fun _ => ?_
  exact .bind (.ofReply fun _ => nofun) fun _ => .pure _

theorem uploadDir_addressed (source : Path) :
    (b.uploadDir r source).Fails StorageError.Addressed := by
  refine .bind (.checkResource hr) fun _ => ?_
  rw [uploadEach_eq]
  refine .bind (sourceFiles_addressed source) fun files => ?_
  exact (Action.Fails.handOver (b.putFile_fails r.stem) files).addressed

theorem uploadZip_addressed (bundle : Path) :
    (b.uploadZip r bundle).Fails StorageError.Addressed := by
  refine .bind (.checkResource hr) fun _ => .bind (checkBundleFile_addressed bundle) fun _ => ?_
  exact .bind (readFile_fails bundle).addressed fun c => (b.putKey_fails _ c).addressed

end Bucket

end Requests

/-! ## Requests with a flaw -/

namespace Storage

/-- The flaw of a request: the first defect of its resource, or else of its path. -/
inductive Request.Flawed (r : Resource) : Request → Defect → Prop where
  | resource {q : Request} {d : Defect} (h : r.firstDefect? = some d) : Flawed r q d
  | path {path : String} (h : r.firstDefect? = none) (hpath : Resource.Astray path) :
      Flawed r (.getFile path) .invalidPath

variable {r : Resource} {q : Request} {d : Defect}

theorem checkResource_run (h : r.firstDefect? = some d) :
    (Action.checkResource r).run = .done (.error (.invalid d)) := by
  rw [Action.checkResource, Resource.check_eq_error.mpr h]
  rfl

theorem checkKey_run {path : String} (h : Resource.Astray path) :
    (Action.check ((r.fileKey path).mapError StorageError.invalid)).run
      = .done (.error (.invalid .invalidPath)) := by
  rw [Resource.fileKey_eq_error.mpr ⟨h, rfl⟩]
  rfl

/-- A flawed request is refused before anything is called. -/
theorem serve_of_flawed (s : Storage) (h : q.Flawed r d) :
    (s.serve r q).run = .done (.error (.invalid d)) := by
  cases h with
  | resource h =>
    have hrefused := checkResource_run h
    cases s <;> cases q <;> exact Action.run_bind_of_error hrefused _
  | path h hpath =>
    have hchecked : (Action.checkResource r).run = .done (.ok ()) := by
      rw [Action.checkResource, Resource.check_eq_ok_iff.mpr h]
      rfl
    have hrefused := checkKey_run (r := r) hpath
    cases s <;>
      exact (Action.run_bind_of_ok hchecked _).trans (Action.run_bind_of_error hrefused _)

/-- A request without a flaw is not refused as invalid. -/
theorem serve_addressed (s : Storage) (hr : r.check = .ok ())
    (hq : ∀ path, q = .getFile path → ∃ key, r.fileKey path = .ok key) :
    (s.serve r q).Fails StorageError.Addressed := by
  cases q with
  | getFile path =>
    obtain ⟨key, hk⟩ := hq path rfl
    cases s with
    | folder f => exact f.getFile_addressed hr hk
    | bucket b => exact b.getFile_addressed hr hk
  | download =>
    cases s with
    | folder f => exact f.download_addressed hr
    | bucket b => exact b.download_addressed hr
  | uploadDir source =>
    cases s with
    | folder f => exact f.uploadDir_addressed hr source
    | bucket b => exact b.uploadDir_addressed hr source
  | uploadZip bundle =>
    cases s with
    | folder f => exact f.uploadZip_addressed hr bundle
    | bucket b => exact b.uploadZip_addressed hr bundle

/-- **A folder and a bucket refuse a request as invalid just for its flaw, and then they have called
nothing and changed nothing.** -/
theorem invalid_iff (s : Storage) (r : Resource) (q : Request) (d : Defect) (w : World) :
    ((w.perform (s.serve r q).run).1 = .error (.invalid d) ↔ q.Flawed r d) ∧
      (q.Flawed r d → (w.perform (s.serve r q).run).2 = w ∧ w.calls (s.serve r q).run = []) := by
  have hdone : ∀ {d'}, q.Flawed r d' →
      w.perform (s.serve r q).run = (.error (.invalid d'), w) ∧ w.calls (s.serve r q).run = [] := by
    intro d' h
    rw [serve_of_flawed s h]
    exact ⟨rfl, rfl⟩
  refine ⟨⟨fun h => ?_, fun h => by rw [(hdone h).1]⟩, fun h => ⟨by rw [(hdone h).1], (hdone h).2⟩⟩
  obtain ⟨d', hflawed⟩ : ∃ d', q.Flawed r d' := by
    by_contra hno
    rw [not_exists] at hno
    have hr : r.firstDefect? = none :=
      Option.eq_none_iff_forall_not_mem.mpr fun d' hd => hno d' (.resource hd)
    refine serve_addressed s (Resource.check_eq_ok_iff.mpr hr) (fun path hq => ?_) w _ h d rfl
    subst hq
    cases hk : r.fileKey path with
    | ok key => exact ⟨key, rfl⟩
    | error d' => exact absurd (.path hr (Resource.fileKey_eq_error.mp hk).1) (hno _)
  rw [(hdone hflawed).1] at h
  exact StorageError.invalid.inj (Except.error.inj h) ▸ hflawed

end Storage

end Depot
