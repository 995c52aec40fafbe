import Depot.Proofs.Folder.Place
import Depot.Proofs.Source

/-!
# Which paths a folder touches

A folder means to touch nothing but what is below its base, apart from reading what it is given to
upload. `Folder.Contains r` says this of all it does for the resource `r`, in every world: each path
that it makes, writes, moves or removes is the base with names behind it, and so is each path that
it reads, or it is one of those given.

Results:
* `Folder.Within` and the lemmas about it go through the operations call by call. What they need of
  the resource is that its tree and its bundle are below the base (`Folder.Holds`).
* `contains_iff`: **every folder contains a resource just if its owner does not begin with a slash
  and neither its owner nor its kind has a part `..`**; the check of the resource does not see to
  that.

The operations are those of `LocalStorage`, whose base all keys are meant to stay below. Out of
scope: where links below the base lead.
-/

namespace Depot

open Text

/-! ## Paths below a base -/

namespace Name

theorem mem_of_mem_stem {b : Bytes} {x : UInt8} (h : x ∈ (stemAndExtension b).1) : x ∈ b := by
  unfold stemAndExtension at h
  simp only at h
  split at h
  · exact h
  · exact List.mem_of_mem_take h

theorem ordinary_beside (n : Name) {nonce : Bytes} (h : slash ∉ nonce) :
    let bytes := (stemAndExtension n.bytes).1 ++ dot :: (encode "zip." ++ nonce ++ encode ".tmp")
    bytes ≠ [] ∧ bytes ≠ [dot] ∧ bytes ≠ [dot, dot] ∧ slash ∉ bytes := by
  intro bytes
  have hz : (0x7A : UInt8) ∈ bytes := by simp [bytes, encode, String.utf8EncodeChar]
  have hslash : slash ∉ bytes := by
    have hzip : slash ∉ encode "zip." := by decide
    have htmp : slash ∉ encode ".tmp" := by decide
    have hstem : slash ∉ (stemAndExtension n.bytes).1 := by
      intro hm
      exact n.ordinary.2.2.2 (mem_of_mem_stem hm)
    simp [bytes, hzip, htmp, hstem, h, show slash ≠ dot by decide]
  refine ⟨fun he => ?_, fun he => ?_, fun he => ?_, hslash⟩ <;> rw [he] at hz <;>
    exact absurd hz (by decide)

/-- The name beside a name under which its bundle is made. -/
def beside (n : Name) {nonce : Bytes} (h : slash ∉ nonce) : Name :=
  ⟨_, n.ordinary_beside h⟩

theorem bytes_beside (n : Name) {nonce : Bytes} (h : slash ∉ nonce) : (n.beside h).bytes
    = (stemAndExtension n.bytes).1 ++ dot :: (encode "zip." ++ nonce ++ encode ".tmp") :=
  rfl

end Name

namespace Path

/-- A path is another one followed by names, one at least. -/
def Below (base p : Path) : Prop :=
  ∃ (names : List Name) (n : Name), p.steps = base.steps ++ (names ++ [n]).map .name

variable {base p q : Path}

theorem Below.inside (h : Below base p) : Inside base p :=
  let ⟨names, n, hn⟩ := h
  ⟨names ++ [n], hn⟩

theorem Below.parent? (h : Below base p) (hq : p.parent? = some q) : Inside base q := by
  obtain ⟨names, n, hn⟩ := h
  refine ⟨names, ?_⟩
  rw [steps_parent? hq, hn, List.map_append, List.map_singleton, ← List.append_assoc,
    List.dropLast_concat]

theorem Below.join_relativeKey (h : Below base p) (names : List Name) :
    Below base (p.join (.ofString (Resource.relativeKey names))) := by
  obtain ⟨before, n, hn⟩ := h
  have hsteps : (p.join (.ofString (Resource.relativeKey names))).steps
      = base.steps ++ (before ++ n :: names.map Name.shown).map .name := by
    rw [steps_join p (Resource.isAbsolute_relativeKey names), Resource.steps_relativeKey, hn]
    simp [Function.comp_def]
  obtain ⟨init, last, hl⟩ := (List.eq_nil_or_concat' (n :: names.map Name.shown)).resolve_left
    (List.cons_ne_nil _ _)
  exact ⟨before ++ init, last, by rw [hsteps, hl, List.append_assoc]⟩

/-- The bundle that is being made stands beside its destination. -/
theorem Below.beside (h : Below base p) {nonce : Bytes} (hnonce : slash ∉ nonce) :
    Below base (p.beside nonce) := by
  obtain ⟨names, n, hn⟩ := h
  rw [List.map_append, List.map_singleton, ← List.append_assoc] at hn
  refine ⟨names, n.beside hnonce, ?_⟩
  rw [Path.beside, steps_withExtension hn (n.bytes_beside hnonce), List.map_append,
    List.map_singleton, ← List.append_assoc]

end Path

/-! ## What the calls of an operation touch -/

namespace Call

/-- The paths that a call makes, writes, moves or removes. -/
@[simp] def changes : Call → List Path
  | .makeDirectories p | .create p | .remove p | .copyFile _ p => [p]
  | .rename p q => [p, q]
  | _ => []

/-- The paths that a call looks at only. -/
@[simp] def looksAt : Call → List Path
  | .stat p | .walk p | .openFile p | .copyFile p _ => [p]
  | _ => []

/-- A call changes nothing outside a base, and looks at nothing outside it but what is given. -/
def Within (base : Path) (given : Path → Prop) (c : Call) : Prop :=
  (∀ p ∈ c.changes, Path.Inside base p) ∧ ∀ p ∈ c.looksAt, Path.Inside base p ∨ given p

end Call

namespace World

theorem exists_digitChar_of_mem_toDigits {b n : Nat} (hb : 1 < b) {c : Char}
    (hc : c ∈ Nat.toDigits b n) : ∃ d < b, c = Nat.digitChar d := by
  induction n using Nat.strongRecOn with
  | ind n ih =>
    rw [Nat.toDigits_eq_if hb] at hc
    split at hc
    · next h => exact ⟨n, h, List.mem_singleton.mp hc⟩
    · next h =>
      rcases List.mem_append.mp hc with hc | hc
      · exact ih (n / b) (Nat.div_lt_self (by omega) hb) hc
      · exact ⟨n % b, Nat.mod_lt _ (by omega), List.mem_singleton.mp hc⟩

/-- The digits of a nonce are no slashes. -/
theorem slash_not_mem_nonceDigits (n : Nat) : slash ∉ nonceDigits n := by
  have hdigits : slash ∉ encode (String.ofList (Nat.toDigits 16 n)) := by
    intro hm
    have hc := (mem_encode_ascii (c := '/') (by decide)).mp hm
    rw [String.toList_ofList] at hc
    obtain ⟨d, hd, he⟩ := exists_digitChar_of_mem_toDigits (by decide) hc
    exact absurd he (by revert d; decide)
  simp [nonceDigits, hdigits, show slash ≠ 0x30 by decide]

end World

namespace Folder

/-- Whatever a folder does for a resource is below its base, but for what it reads to upload it. -/
structure Contains (f : Folder) (r : Resource) : Prop where
  getFile : ∀ w path, ∀ c ∈ World.calls w (f.getFile r path).run, c.Within f.base fun _ => False
  download : ∀ w, ∀ c ∈ World.calls w (f.download r).run, c.Within f.base fun _ => False
  uploadDir : ∀ w source, ∀ c ∈ World.calls w (f.uploadDir r source).run,
    c.Within f.base (Path.Inside source)
  uploadZip : ∀ w bundle, ∀ c ∈ World.calls w (f.uploadZip r bundle).run,
    c.Within f.base (· = bundle)

/-- The tree and the bundle of a resource are below the base of a folder. -/
structure Holds (f : Folder) (r : Resource) : Prop where
  tree : Path.Below f.base (f.pathOf r.stem)
  bundle : Path.Below f.base (f.pathOf r.bundleKey)

variable {f : Folder} {r : Resource} {given : Path → Prop}

theorem Holds.of_descends (h : r.Descends) (hr : r.check = .ok ()) : f.Holds r := by
  have ho := (Resource.check_eq_ok.mp hr).1
  obtain ⟨names, hn⟩ := (Resource.descends_iff hr).mp h
  have hentry : ∀ {entry}, IsName entry → Path.Below f.base (f.pathOf (r.entryKey entry)) := by
    intro entry he
    have hrel : (Path.ofString (r.entryKey entry)).isAbsolute = false :=
      Bool.eq_false_iff.mpr fun ha => h.relative ((Resource.isAbsolute_entryKey ho entry).mp ha)
    refine ⟨names, .ofText entry he, ?_⟩
    rw [pathOf, Path.steps_join _ hrel, Resource.steps_entryKey ho he, hn, List.map_append]
    rfl
  exact ⟨r.stem_eq ▸ hentry r.isName_treeEntry, r.bundleKey_eq ▸ hentry r.isName_bundleEntry⟩

/-! ## The operations, call by call -/

theorem makeDirectories_confined {base p : Path} (h : Path.Inside base p) :
    (makeDirectories p).Confined (Call.Within base given) fun _ => True :=
  .reply (.call (by simp [Call.Within, h]))

theorem makeParent_confined {base p : Path} (h : Path.Below base p) :
    (makeParent p).Confined (Call.Within base given) fun _ => True := by
  unfold makeParent
  split
  · next q hq => exact makeDirectories_confined (h.parent? hq)
  · exact .pure trivial

theorem putFile_confined {base root : Path} (h : Path.Below base root) (names : List Name)
    (file : Handle) :
    (putFile root (Resource.relativeKey names) file).Confined (Call.Within base given)
      fun _ => True := by
  have hpath := h.join_relativeKey names
  refine .bind (makeParent_confined hpath) fun _ _ => ?_
  refine .bind (.reply (.call (by simp [Call.Within, hpath.inside]))) fun out _ => ?_
  exact .reply (.call (by simp [Call.Within]))

theorem readKey_confined {key : String} (h : Path.Inside f.base (f.pathOf key)) :
    (f.readKey key).Confined (Call.Within f.base given) fun _ => True := by
  refine .bind (.reply (.call (by simp [Call.Within, h]))) fun file _ => ?_
  exact .reply (.call (by simp [Call.Within]))

theorem hasKey_confined {key : String} (h : Path.Inside f.base (f.pathOf key)) :
    (f.hasKey key).Confined (Call.Within f.base given) fun _ => True :=
  .concluding (by simp [Call.Within, h])

theorem checkTree_confined {key : String} (h : Path.Inside f.base (f.pathOf key)) :
    (f.checkTree key).Confined (Call.Within f.base given) fun _ => True :=
  .concluding (by simp [Call.Within, h])

theorem checkBundleFile_confined {base bundle : Path} (h : given bundle) :
    (checkBundleFile bundle).Confined (Call.Within base given) fun _ => True :=
  .concluding (by simp [Call.Within, h])

theorem discardBundle_confined (h : f.Holds r) :
    (f.discardBundle r).Confined (Call.Within f.base given) fun _ => True :=
  .bind (.ofProcedure (.call (by simp [Call.Within, h.bundle.inside]))) fun _ _ => .pure trivial

theorem members_confined {base : Path} {files : List SourceFile}
    (h : ∀ file ∈ files, Path.Inside base file.path) (taken : List (Member Content)) :
    (Bundle.members taken files).Confined (Call.Within base given) fun _ => True := by
  induction files generalizing taken with
  | nil => exact .pure trivial
  | cons file rest ih =>
    have hfile := h file List.mem_cons_self
    refine .bind (.reply (.call (by simp [Call.Within, hfile]))) fun out _ => ?_
    refine .bind (.ofProcedure (.call (by simp [Call.Within]))) fun mode _ => ?_
    split
    · exact .throw
    · refine .bind (.reply (.call (by simp [Call.Within]))) fun content _ => ?_
      exact ih (fun file hm => h file (List.mem_cons_of_mem _ hm)) _

theorem removing_confined {α : Type} {base path : Path} {action : Action α}
    (hp : Path.Inside base path)
    (h : action.Confined (Call.Within base given) fun _ => True) :
    (Bundle.removing path action).Confined (Call.Within base given) fun _ => True := by
  refine .tryCatch h fun e => .bind (.ofProcedure (.call (by simp [Call.Within, hp]))) fun _ _ => ?_
  exact .throw

theorem bundle_confined {base source dest : Path} (hs : Path.Inside base source)
    (hd : Path.Below base dest) :
    (Bundle.make source dest).Confined (Call.Within base given) fun _ => True := by
  refine .bind (collect_confined (by simp [Call.Within, hs])) fun files hfiles => ?_
  have hnonce : (Procedure.ofCall .nonce).Confined (Call.Within base given) fun nonce =>
      slash ∉ nonce := .ofCall (by simp [Call.Within]) fun w => World.slash_not_mem_nonceDigits _
  refine .bind (.ofProcedure hnonce) fun nonce hnonce => ?_
  have ht := hd.beside hnonce
  have hin : ∀ file ∈ files, Path.Inside base file.path := by
    intro file hm
    exact hs.trans (hfiles file hm).1
  refine .bind (removing_confined ht.inside ?_) fun _ _ => ?_
  · refine .bind (.reply (.call (by simp [Call.Within, ht.inside]))) fun out _ => ?_
    refine .bind (members_confined hin []) fun ms _ => ?_
    exact .reply (.call (by simp [Call.Within]))
  · refine .bind (removing_confined ht.inside (.reply (.call ?_))) fun _ _ => .pure trivial
    simp [Call.Within, ht.inside, hd.inside]

theorem checkResource_confined {P : Call → Prop} :
    (Action.checkResource r).Confined P fun _ => True :=
  .check fun _ _ => trivial

/-- A folder that holds a resource contains it. -/
theorem Holds.contains (h : f.Holds r) : f.Contains r where
  getFile w path := by
    have hc : (f.getFile r path).Confined (Call.Within f.base fun _ => False) fun _ => True := by
      refine .bind checkResource_confined fun _ _ => ?_
      refine .bind (.check (Q := fun key => Path.Inside f.base (f.pathOf key)) fun key hk => ?_)
        fun key hk => readKey_confined hk
      obtain ⟨names, -, rfl⟩ := Resource.exists_names_of_fileKey (mapError_eq_ok.mp hk)
      rw [pathOf_fileKey]
      exact (h.tree.join_relativeKey names).inside
    exact (hc w).1
  download w := by
    have hc : (f.download r).Confined (Call.Within f.base fun _ => False) fun _ => True := by
      refine .bind checkResource_confined fun _ _ => ?_
      refine .bind (hasKey_confined h.bundle.inside) fun has _ => ?_
      split
      · exact .pure trivial
      · refine .bind (checkTree_confined h.tree.inside) fun _ _ => ?_
        exact .bind (bundle_confined h.tree.inside h.bundle) fun _ _ => .pure trivial
    exact (hc w).1
  uploadDir w source := by
    have hc : (f.uploadDir r source).Confined (Call.Within f.base (Path.Inside source))
        fun _ => True := by
      refine .bind checkResource_confined fun _ _ => ?_
      refine .bind (discardBundle_confined h) fun _ _ => ?_
      exact uploadEach_confined (by simp [Call.Within, Path.Inside.refl])
        (by simp [Call.Within, Path.Inside.refl]) (fun p hp => by simp [Call.Within, hp])
        fun names file => putFile_confined h.tree names file
    exact (hc w).1
  uploadZip w bundle := by
    have hc : (f.uploadZip r bundle).Confined (Call.Within f.base (· = bundle)) fun _ => True := by
      refine .bind checkResource_confined fun _ _ => ?_
      refine .bind (checkBundleFile_confined rfl) fun _ _ => ?_
      refine .bind (makeParent_confined h.bundle) fun _ _ => ?_
      exact .reply (.call (by simp [Call.Within, h.bundle.inside]))
    exact (hc w).1

/-! ## The resources that are contained -/

theorem openFile_mem_calls {path key : String} (hr : r.check = .ok ())
    (hk : r.fileKey path = .ok key) (w : World) :
    Call.openFile (f.pathOf key) ∈ w.calls (f.getFile r path).run := by
  rw [getFile, World.calls_bind_action, World.perform_checkResource hr]
  refine List.mem_append_right _ ?_
  rw [World.calls_bind_action, World.perform_checkKey hk]
  refine List.mem_append_right _ ?_
  change _ ∈ w.calls (f.readKey key).run
  unfold readKey
  rw [World.calls_bind_action]
  exact List.mem_append_left _ (List.mem_append_left _ (List.mem_singleton_self _))

/-- Each step to the directory of the versions is one of the path of the tree. -/
theorem mem_steps_pathOf_stem (ho : r.owner ≠ "") {c : Component} (hc : c ∈ r.lead) :
    c ∈ (f.pathOf r.stem).steps := by
  have hstem : c ∈ (Path.ofString r.stem).steps := by
    rw [r.stem_eq, Resource.steps_entryKey ho r.isName_treeEntry]
    exact List.mem_append_left _ hc
  unfold pathOf
  by_cases ha : (Path.ofString r.stem).isAbsolute = true
  · rwa [Path.join_of_isAbsolute _ ha]
  · rw [Path.steps_join _ (Bool.eq_false_iff.mpr ha)]
    exact List.mem_append_right _ hstem

/-- A folder whose base is a name contains only what descends. -/
theorem Contains.descends {n : Name} (h : Contains ⟨⟨n.bytes⟩⟩ r) (hr : r.check = .ok ()) :
    r.Descends := by
  have hcall := h.getFile (.ofVolume ⟨.directory 0o755 [], [], none⟩ "") _ _
    (openFile_mem_calls hr (r.fileKey_relativeKey (List.cons_ne_nil n [])) _)
  obtain ⟨names, hn⟩ : Path.Inside ⟨n.bytes⟩ (pathOf ⟨⟨n.bytes⟩⟩ r.stem |>.join _) := by
    simpa [Call.Within, pathOf_fileKey] using hcall.2
  rw [Path.steps_join _ (Resource.isAbsolute_relativeKey _), Path.steps_name] at hn
  have hall := Path.exists_names_iff.mp ⟨n :: names, hn⟩
  refine (Resource.descends_iff hr).mpr (Path.exists_names_iff.mpr ?_)
  have ho := (Resource.check_eq_ok.mp hr).1
  exact ⟨fun hc => hall.1 (List.mem_append_left _ (mem_steps_pathOf_stem ho hc)),
    fun hc => hall.2.1 (List.mem_append_left _ (mem_steps_pathOf_stem ho hc)),
    fun hc => hall.2.2 (List.mem_append_left _ (mem_steps_pathOf_stem ho hc))⟩

/-- **Every folder contains a resource just if the resource descends**: if its owner does not begin
with a slash, and neither owner nor kind has a part `..`. -/
theorem contains_iff (hr : r.check = .ok ()) : (∀ f : Folder, f.Contains r) ↔ r.Descends :=
  ⟨fun h => (h ⟨⟨(Name.ofText r.treeEntry r.isName_treeEntry).bytes⟩⟩).descends hr,
    fun h _ => (Holds.of_descends h hr).contains⟩

/-- A model with a version. -/
def plainModel : Resource :=
  ⟨"robotics", "models", "e6af5323-db4d-4db3-a402-a8992d6c8d99", 1⟩

/-- A resource whose owner goes up. -/
def upwardOwner : Resource :=
  ⟨"..", "models", "e6af5323-db4d-4db3-a402-a8992d6c8d99", 1⟩

theorem contains_plainModel : plainModel.check = .ok () ∧ ∀ f : Folder, f.Contains plainModel :=
  have h : plainModel.check = .ok () := by decide
  ⟨h, (contains_iff h).mpr ⟨by decide, by decide, by decide⟩⟩

theorem not_contains_upwardOwner :
    upwardOwner.check = .ok () ∧ ¬ Contains ⟨.ofString "store"⟩ upwardOwner := by
  have h : upwardOwner.check = .ok () := by decide
  exact ⟨h, fun hc => absurd (Contains.descends (n := .ofText "store" isName_store) hc h).owner
    (by decide)⟩

end Folder

end Depot
