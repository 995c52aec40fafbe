import Depot.Proofs.Bucket.Refusals
import Depot.Proofs.Storage.Isolation
import Depot.Proofs.Storage.Requests

/-!
# What a bucket holds after any requests

Requests to a bucket may fail at any step, and an upload that fails has put some of its files. What
the bucket holds is read off the history all the same:

* `Bucket.puts` are the files that an upload puts: those before the first that cannot be read or
  whose request is refused.
* `Storage.Turn.file?` is what a turn put last under the key of a file, `Storage.Turn.bundle?` is
  the bundle that it put.
* `Bucket.Ledger` says that each object is the last that was put, that a link is given just if the
  bundle is there and the store grants two requests, and that every error tells what was refused.

`Bucket.ledger_of_run`: **this holds after any run of requests, whatever the store refuses.**

The requests are `upload_dir`, `upload_zip`, `download` and `get_file` of a `CloudStorage`. Out of
scope: who else puts objects to the store.
-/

namespace Depot

/-! ## Lookups by another key -/

theorem lookup_map_key {κ κ' β : Type} [DecidableEq κ] [DecidableEq κ'] (f : κ → κ') {k : κ}
    {l : List (κ × β)} (h : ∀ e ∈ l, f e.1 = f k → e.1 = k) :
    (l.map fun e => (f e.1, e.2)).lookup (f k) = l.lookup k := by
  induction l with
  | nil => rfl
  | cons e l ih =>
    obtain ⟨k', b⟩ := e
    rw [List.map_cons, lookup_cons_if, lookup_cons_if,
      ih fun e he => h e (List.mem_cons_of_mem _ he)]
    refine if_congr ⟨fun he => ?_, congrArg f⟩ rfl rfl
    exact (h _ List.mem_cons_self he.symm).symm

/-- The object of a file is not that of the bundle. -/
theorem ObjectPath.ofKey_fileKey_ne_bundle (r : Resource) {names : List Name} (h : names ≠ []) :
    ofKey (r.stem ++ "/" ++ Resource.relativeKey names) ≠ ofKey r.bundleKey := by
  intro he
  obtain ⟨lead, htree, hbundle⟩ := (ObjectPath.lists r).entries
  rw [ofKey_eq_iff, (ObjectPath.lists r).file names h, htree, hbundle] at he
  have hlength := congrArg List.length he
  simp [h] at hlength

/-! ## Requests to put and to look -/

namespace ObjectStore

variable {s s' : ObjectStore} {p : ObjectPath} {c : Content}

theorem find?_of_put_error {e : StoreError} (h : s.put p c = (.error e, s')) (q : ObjectPath) :
    s'.find? q = s.find? q := by
  unfold put request at h
  split at h
  · cases h
    rfl
  · exact nomatch (Prod.mk.inj h).1

/-- A request that leaves the objects as they are, whatever comes of it. -/
theorem find?_request {α : Type} {step : StoreStep}
    {answer : ObjectStore → Except StoreError α × ObjectStore}
    (h : ∀ s, (answer s).2.objects = s.objects) (q : ObjectPath) :
    (s.request step answer).2.find? q = s.find? q := by
  unfold request
  split
  · rfl
  · exact congrArg (List.lookup q) (h _)

theorem head_eq_ok :
    s.head p = (.ok (), s') ↔ (s.find? p).isSome = true ∧ s.Passes .head ∧ s.after .head = s' := by
  rw [head, request_eq_ok, and_left_comm]
  refine and_congr_right fun _ => ?_
  rw [Prod.mk.injEq, found, find?, find?, after]
  refine and_congr_left fun _ => ?_
  cases s.objects.lookup p <;> simp [Except.map]

theorem sign_eq_ok {origin url : String} {t : Lifetime} :
    s.sign origin p t = (.ok url, s') ↔
      s.Passes .sign ∧ signedUrl origin p t = url ∧ s.after .sign = s' := by
  rw [sign, request_eq_ok]
  simp

theorem find?_put_ok (h : s.put p c = (.ok (), s')) (q : ObjectPath) :
    s'.find? q = if q = p then some c else s.find? q := by
  obtain ⟨-, h⟩ := request_eq_ok.mp h
  rw [← (Prod.mk.inj h).2]
  exact lookup_insert p q c s.objects

end ObjectStore

namespace World

variable {w w' : World} {s : StoreRef} {p : ObjectPath} {c : Content}

/-- Whether the next request for a step is granted; services are out of reach. -/
def Grants (w : World) (step : StoreStep) : StoreRef → Prop
  | .named name => (w.store name).Passes step
  | .service _ => False

theorem perform_head_eq_ok {name : String} :
    w.perform (.ofCall (.head (.named name) p)) = (.ok (), w') ↔
      ∃ s, (w.store name).head p = (.ok (), s) ∧ w.setStore name s = w' := by
  change w.asking (.named name) (·.head p) = _ ↔ _
  exact asking_eq_ok

theorem perform_sign_eq_ok {name url : String} {t : Lifetime} :
    w.perform (.ofCall (.sign (.named name) p t)) = (.ok url, w') ↔
      ∃ s, (w.store name).sign w.origin p t = (.ok url, s) ∧ w.setStore name s = w' := by
  change w.asking (.named name) (·.sign w.origin p t) = _ ↔ _
  exact asking_eq_ok

theorem content?_asking {α : Type} {request : ObjectStore → Except StoreError α × ObjectStore}
    (h : ∀ s q, (request s).2.find? q = s.find? q) (q : ObjectPath) :
    (w.asking s request).2.content? (.object s q) = w.content? (.object s q) := by
  cases s with
  | service location => rfl
  | named name =>
    rw [asking, content?, store_setStore, if_pos rfl]
    exact h (w.store name) q

theorem content?_of_put (h : answer (.put s p c) w = (.ok (), w')) (q : ObjectPath) :
    w'.content? (.object s q) = if q = p then some c else w.content? (.object s q) := by
  cases s with
  | service location => exact nomatch (Prod.mk.inj h).1
  | named name =>
    obtain ⟨s, hs, rfl⟩ := perform_put_eq_ok.mp h
    rw [content?, store_setStore, if_pos rfl]
    exact ObjectStore.find?_put_ok hs q

theorem content?_of_put_error {e : StoreError} (h : answer (.put s p c) w = (.error e, w'))
    (q : ObjectPath) : w'.content? (.object s q) = w.content? (.object s q) := by
  cases s with
  | service location =>
    cases h
    rfl
  | named name =>
    obtain ⟨hput, rfl⟩ := Prod.mk.inj h
    rw [content?, store_setStore, if_pos rfl]
    exact ObjectStore.find?_of_put_error (Prod.ext hput rfl) q

end World

namespace Bucket

variable {b : Bucket} {r : Resource} {w w' : World}

/-! ## What an upload of files puts -/

/-- The files that are put before the first that cannot be read or whose request is refused: their
keys, and what was read. -/
def puts (b : Bucket) (stem : String) : List SourceFile → World → List (String × Content)
  | [], _ => []
  | file :: rest, w =>
    let key := stem ++ "/" ++ file.key
    match w.volume.readFile file.path with
    | .error _ => []
    | .ok c =>
      match World.answer (.put b.store (.ofKey key) c) w with
      | (.error _, _) => []
      | (.ok (), w) => (key, c) :: b.puts stem rest w

/-- The object that was put last at a path. -/
def lastAt (puts : List (String × Content)) (p : ObjectPath) : Option Content :=
  (puts.map fun e => (ObjectPath.ofKey e.1, e.2)).reverse.lookup p

theorem lastAt_cons (key : String) (c : Content) (puts : List (String × Content))
    (p : ObjectPath) : lastAt ((key, c) :: puts) p
      = (lastAt puts p).or (if p = .ofKey key then some c else none) := by
  rw [lastAt, List.map_cons, List.reverse_cons, List.lookup_append, lookup_cons_if]
  rfl

theorem lastAt_eq_none {puts : List (String × Content)} {p : ObjectPath}
    (h : ∀ e ∈ puts, .ofKey e.1 ≠ p) : lastAt puts p = none := by
  refine List.lookup_eq_none_iff.mpr fun e he => ?_
  obtain ⟨e, hm, rfl⟩ := List.mem_map.mp (List.mem_reverse.mp he)
  exact bne_iff_ne.mpr (h e hm).symm

theorem lastAt_ofKey {puts : List (String × Content)} {key : String}
    (h : ∀ e ∈ puts, ObjectPath.ofKey e.1 = .ofKey key → e.1 = key) :
    lastAt puts (.ofKey key) = puts.reverse.lookup key := by
  rw [lastAt, ← List.map_reverse]
  exact lookup_map_key ObjectPath.ofKey fun e he => h e (List.mem_reverse.mp he)

theorem perform_putFile (stem relative : String) (file : Handle) (w : World) :
    w.perform (b.putFile stem relative file).run = match w.volume.readAt file with
      | .error k => (.error (.system (.readSource (stem ++ "/" ++ relative)) k), w)
      | .ok c =>
        let key := stem ++ "/" ++ relative
        let (r, w) := World.answer (.put b.store (.ofKey key) c) w
        (r.mapError (b.failed "put" key), w) := by
  rw [putFile, World.perform_bind_action, Action.trying, World.perform_ofReply,
    World.perform_ofCall, World.answer]
  cases w.volume.readAt file with
  | error k => rfl
  | ok c => exact World.perform_ofReply ..

/-- An upload of files changes the objects of the files that it puts, and succeeds if it puts all of
them. -/
theorem perform_handOver (stem : String) (files : List SourceFile) (w : World) :
    (∀ p, (w.perform (handOver (b.putFile stem) files).run).2.content? (.object b.store p)
        = (lastAt (b.puts stem files w) p).or (w.content? (.object b.store p))) ∧
      ((w.perform (handOver (b.putFile stem) files).run).1 = .ok () ↔
        (b.puts stem files w).length = files.length) := by
  induction files generalizing w with
  | nil => exact ⟨fun p => rfl, iff_of_true rfl rfl⟩
  | cons file rest ih =>
    rw [puts, World.perform_handOver_cons, Volume.readFile]
    cases w.volume.openFile file.path with
    | error k => exact ⟨fun p => rfl, iff_of_false (by rintro ⟨⟩) (by rintro ⟨⟩)⟩
    | ok h =>
      dsimp only
      rw [perform_putFile, show (Except.ok h >>= w.volume.readAt) = w.volume.readAt h from rfl]
      cases w.volume.readAt h with
      | error k => exact ⟨fun p => rfl, iff_of_false (by rintro ⟨⟩) (by rintro ⟨⟩)⟩
      | ok c =>
        dsimp only
        rcases hput : World.answer (.put b.store (.ofKey (stem ++ "/" ++ file.key)) c) w
          with ⟨e | u, w₁⟩
        · exact ⟨World.content?_of_put_error hput, iff_of_false (by rintro ⟨⟩) (by rintro ⟨⟩)⟩
        · obtain ⟨hobjects, hdone⟩ := ih w₁
          refine ⟨fun p => ?_, ?_⟩
          · rw [lastAt_cons, Option.or_assoc]
            refine (hobjects p).trans (congrArg _ ?_)
            rw [World.content?_of_put hput]
            split <;> rfl
          · rw [List.length_cons, List.length_cons, Nat.add_right_cancel_iff]
            exact hdone

theorem volume_put (w : World) (s : StoreRef) (p : ObjectPath) (c : Content) :
    (World.answer (.put s p c) w).2.volume = w.volume := by
  cases s <;> rfl

/-- What is put is what was read from a file. -/
theorem exists_file_of_mem_puts {stem : String} {files : List SourceFile} {e : String × Content}
    (h : e ∈ b.puts stem files w) : ∃ file ∈ files, e.1 = stem ++ "/" ++ file.key ∧
      w.volume.readFile file.path = .ok e.2 := by
  induction files generalizing w with
  | nil => exact absurd h List.not_mem_nil
  | cons file rest ih =>
    rw [puts] at h
    split at h
    · exact absurd h List.not_mem_nil
    next c hread =>
    have hvolume := volume_put w b.store (.ofKey (stem ++ "/" ++ file.key)) c
    split at h
    · exact absurd h List.not_mem_nil
    next w₁ hput =>
    rw [hput] at hvolume
    rcases List.mem_cons.mp h with rfl | h
    · exact ⟨file, List.mem_cons_self, rfl, hread⟩
    · obtain ⟨other, ho, hkey, hother⟩ := ih h
      exact ⟨other, List.mem_cons_of_mem _ ho, hkey, hvolume ▸ hother⟩

theorem exists_of_lastAt {puts : List (String × Content)} {p : ObjectPath} {c : Content}
    (h : lastAt puts p = some c) : ∃ e ∈ puts, ObjectPath.ofKey e.1 = p ∧ e.2 = c := by
  obtain ⟨before, after, he, -⟩ := List.lookup_eq_some_iff.mp h
  have hmem := List.mem_reverse.mp (he ▸ List.mem_append_right before List.mem_cons_self)
  obtain ⟨e, hm, hpc⟩ := List.mem_map.mp hmem
  exact ⟨e, hm, congrArg Prod.fst hpc, congrArg Prod.snd hpc⟩

/-- What is put from a folder has keys of names. -/
theorem exists_names_of_mem_puts {stem : String} {source : Path} {e : String × Content}
    (h : e ∈ b.puts stem (w.volume.filesIn source) w) :
    ∃ names, names ≠ [] ∧ e.1 = stem ++ "/" ++ Resource.relativeKey names := by
  obtain ⟨file, hf, he, -⟩ := exists_file_of_mem_puts h
  obtain ⟨names, hne, hkey⟩ := exists_names_of_mem_filesIn hf
  exact ⟨names, hne, hkey ▸ he⟩

/-! ## What the operations do to the objects -/

/-- The bucket holds the same objects. -/
def Keeps (b : Bucket) (w w' : World) : Prop :=
  ∀ p, w'.content? (.object b.store p) = w.content? (.object b.store p)

instance : IsPreorder World b.Keeps where
  refl _ _ := rfl
  trans _ _ _ h h' p := (h' p).trans (h p)

theorem getFile_moves (path : String) : (b.getFile r path).Moves b.Keeps := by
  refine .bind (.check _) fun _ => .bind (.check _) fun key => ?_
  refine .bind (.ofReply (.call fun w => ?_)) fun c => .ofReply (.call fun w => ?_)
  · exact World.content?_asking fun s q => ObjectStore.find?_request (fun _ => rfl) q
  · exact World.content?_asking fun s q => ObjectStore.find?_request (fun _ => rfl) q

theorem download_moves : (b.download r).Moves b.Keeps := by
  refine .bind (.check _) fun _ => ?_
  refine .bind (.ofReply (.call fun w => ?_)) fun _ => ?_
  · exact World.content?_asking fun s q => ObjectStore.find?_request (fun _ => rfl) q
  refine .bind (.ofReply (.call fun w => ?_)) fun url => .pure _
  exact World.content?_asking fun s q => ObjectStore.find?_request (fun _ => rfl) q

theorem perform_uploadDir (hr : r.check = .ok ()) (source : Path) (w : World) :
    (∀ p, (w.perform (b.uploadDir r source).run).2.content? (.object b.store p)
        = (lastAt (b.puts r.stem (w.volume.filesIn source) w) p).or
          (w.content? (.object b.store p))) ∧
      ((w.perform (b.uploadDir r source).run).1 = .ok () ↔ w.volume.filesIn source ≠ [] ∧
        (b.puts r.stem (w.volume.filesIn source) w).length = (w.volume.filesIn source).length) := by
  rw [uploadDir, World.perform_bind_of_ok (World.perform_checkResource hr w), uploadEach_eq]
  obtain ⟨hne, hfiles⟩ | ⟨hnil, e, hfiles⟩ := w.perform_sourceFiles source
  · rw [World.perform_bind_of_ok hfiles]
    obtain ⟨hobjects, hdone⟩ := perform_handOver (b := b) r.stem (w.volume.filesIn source) w
    exact ⟨hobjects, hdone.trans (and_iff_right hne).symm⟩
  · rw [World.perform_bind_action, hfiles, hnil]
    exact ⟨fun p => rfl, iff_of_false (by simp) fun h => h.1 rfl⟩

theorem perform_readFile (p : Path) (w : World) : w.perform (readFile p).run
    = ((w.volume.readFile p).mapError (.system (.readBundle p)), w) := by
  rw [readFile, World.perform_bind_action, Action.trying, World.perform_ofReply,
    World.perform_ofCall, World.answer, Volume.readFile]
  cases w.volume.openFile p with
  | error k => rfl
  | ok h => exact World.perform_ofReply ..

/-- The bundle of a resource is put, with the content of a file, or nothing is. -/
theorem perform_uploadZip (hr : r.check = .ok ()) (bundle : Path) (w : World) :
    ((w.perform (b.uploadZip r bundle).run).1 = .ok () ∧
        ∃ c, w.volume.readFile bundle = .ok c ∧ ∀ p,
          (w.perform (b.uploadZip r bundle).run).2.content? (.object b.store p)
            = if p = .ofKey r.bundleKey then some c else w.content? (.object b.store p)) ∨
      (w.perform (b.uploadZip r bundle).run).1 ≠ .ok () ∧
        b.Keeps w (w.perform (b.uploadZip r bundle).run).2 := by
  rw [uploadZip, World.perform_bind_of_ok (World.perform_checkResource hr w)]
  obtain ⟨-, hcheck⟩ | ⟨-, hcheck⟩ := w.perform_checkBundleFile bundle
  rotate_left
  · rw [World.perform_bind_action, hcheck]
    exact .inr ⟨nofun, fun p => rfl⟩
  rw [World.perform_bind_of_ok hcheck, World.perform_bind_action, perform_readFile]
  cases w.volume.readFile bundle with
  | error k => exact .inr ⟨nofun, fun p => rfl⟩
  | ok c =>
    dsimp only [Except.mapError]
    rw [putKey, World.perform_ofReply, World.perform_ofCall]
    rcases hput : World.answer (.put b.store (.ofKey r.bundleKey) c) w with ⟨e | u, w₁⟩
    · exact .inr ⟨nofun, World.content?_of_put_error hput⟩
    · exact .inl ⟨rfl, c, rfl, World.content?_of_put hput⟩

/-- A link is given if the bundle is there and both requests are granted. -/
theorem exists_link_iff (hr : r.check = .ok ()) :
    (∃ l, (w.perform (b.download r).run).1 = .ok l) ↔
      (w.content? (.object b.store (.ofKey r.bundleKey))).isSome = true ∧
        w.Grants .head b.store ∧ w.Grants .sign b.store := by
  rw [download, World.perform_bind_of_ok (World.perform_checkResource hr w)]
  cases hb : b.store with
  | service location => exact iff_of_false nofun fun h => h.2.1
  | named name =>
    have hafter : ∀ s, (w.setStore name s).store name = s := by
      intro s
      rw [World.store_setStore, if_pos rfl]
    constructor
    · rintro ⟨l, hl⟩
      obtain ⟨⟨⟩, w₁, hhead, h⟩ := World.perform_bind_eq_ok.mp (Prod.ext hl rfl)
      obtain ⟨s, hs, rfl⟩ := World.perform_head_eq_ok.mp (World.perform_ofReply_eq_ok.mp hhead)
      obtain ⟨hfind, hpass, rfl⟩ := ObjectStore.head_eq_ok.mp hs
      obtain ⟨url, w₂, hsign, -⟩ := World.perform_bind_eq_ok.mp h
      obtain ⟨s, hs, -⟩ := World.perform_sign_eq_ok.mp (World.perform_ofReply_eq_ok.mp hsign)
      obtain ⟨hpass', -, -⟩ := ObjectStore.sign_eq_ok.mp hs
      rw [hafter] at hpass'
      exact ⟨hfind, hpass, (ObjectStore.passes_after (by decide)).mp hpass'⟩
    · rintro ⟨hfind, hpass, hpass'⟩
      have hhead := World.perform_head_eq_ok.mpr
        ⟨_, ObjectStore.head_eq_ok.mpr ⟨hfind, hpass, rfl⟩, rfl⟩
      rw [World.perform_bind_of_ok (World.perform_ofReply_eq_ok.mpr hhead)]
      have hpass'' : ((w.store name).after .head).Passes .sign :=
        (ObjectStore.passes_after (by decide)).mpr hpass'
      rw [← hafter (ObjectStore.after _ _)] at hpass''
      have hsign := (World.perform_sign_eq_ok (p := .ofKey r.bundleKey) (t := b.linkLifetime)).mpr
        ⟨_, ObjectStore.sign_eq_ok.mpr ⟨hpass'', rfl, rfl⟩, rfl⟩
      rw [World.perform_bind_of_ok (World.perform_ofReply_eq_ok.mpr hsign)]
      exact ⟨_, rfl⟩

end Bucket

/-! ## After any requests -/

namespace Storage.Turn

variable (b : Bucket) (r : Resource)

/-- What a turn put last under the key of a file. -/
def file? (key : String) (t : Turn) : Option Content :=
  match t.request with
  | .uploadDir source =>
    (b.puts r.stem (t.before.volume.filesIn source) t.before).reverse.lookup key
  | _ => none

/-- The bundle that a turn put. -/
def bundle? (t : Turn) : Option Content :=
  match t.request with
  | .uploadZip bundle =>
    match (t.before.perform (b.uploadZip r bundle).run).1 with
    | .ok _ => (t.before.volume.readFile bundle).toOption
    | .error _ => none
  | _ => none

/-- A turn that uploads files succeeds just if there are files and it puts all of them. -/
def Complete (t : Turn) : Prop :=
  match t.request with
  | .uploadDir source =>
    let files := t.before.volume.filesIn source
    (t.before.perform (b.uploadDir r source).run).1 = .ok () ↔
      files ≠ [] ∧ (b.puts r.stem files t.before).length = files.length
  | _ => True

end Storage.Turn

open Storage (Turn)

namespace Bucket

/-- What the turns `ts`, the latest first, have left of a resource in a bucket. -/
structure Ledger (b : Bucket) (r : Resource) (w₀ : World) (ts : List Turn) (w : World) :
    Prop where
  bundle : w.content? (.object b.store (.ofKey r.bundleKey))
    = (ts.findSome? (Turn.bundle? b r)).or (w₀.content? (.object b.store (.ofKey r.bundleKey)))
  file : ∀ path key, r.fileKey path = .ok key → w.content? (.object b.store (.ofKey key))
    = (ts.findSome? (Turn.file? b r key)).or (w₀.content? (.object b.store (.ofKey key)))
  complete : ∀ t ∈ ts, t.Complete b r
  link : (∃ l, (w.perform (b.download r).run).1 = .ok l) ↔
    (w.content? (.object b.store (.ofKey r.bundleKey))).isSome = true ∧
      w.Grants .head b.store ∧ w.Grants .sign b.store
  tells : ∀ t ∈ ts, Tells (t.reply (.bucket b) r)
    (t.before.refusals (Storage.serve (.bucket b) r t.request).run)

variable {b : Bucket} {r : Resource} {w₀ w : World} {ts : List Turn}

theorem tells_turn (t : Turn) : Tells (t.reply (.bucket b) r)
    (t.before.refusals (Storage.serve (.bucket b) r t.request).run) := by
  obtain ⟨w, _ | _ | _ | _⟩ := t
  · exact getFile_reports _ w
  · exact download_reports w
  · exact uploadDir_reports _ w
  · exact uploadZip_reports _ w

theorem complete_turn (hr : r.check = .ok ()) (t : Turn) : t.Complete b r := by
  obtain ⟨w, _ | _ | source | _⟩ := t
  · trivial
  · trivial
  · exact (perform_uploadDir hr source w).2
  · trivial

theorem bundle_turn (hr : r.check = .ok ()) (t : Turn) :
    (t.after (.bucket b) r).content? (.object b.store (.ofKey r.bundleKey))
      = (t.bundle? b r).or (t.before.content? (.object b.store (.ofKey r.bundleKey))) := by
  obtain ⟨w, path | _ | source | bundle⟩ := t
  · exact getFile_moves path w _
  · exact download_moves w _
  · refine ((perform_uploadDir hr source w).1 _).trans (congrArg (Option.or · _) ?_)
    refine lastAt_eq_none fun e he => ?_
    obtain ⟨names, hne, hkey⟩ := exists_names_of_mem_puts he
    exact hkey ▸ (ObjectPath.ofKey_fileKey_ne_bundle r hne)
  · unfold Turn.bundle?
    obtain ⟨hok, c, hread, hobjects⟩ | ⟨herror, hkeeps⟩ := perform_uploadZip (b := b) hr bundle w
    · refine (hobjects _).trans ?_
      dsimp only
      rw [if_pos rfl, hok, hread]
      rfl
    · refine (hkeeps _).trans ?_
      dsimp only
      split
      · next h => exact absurd h herror
      · rfl

theorem file_turn (hr : r.check = .ok ()) {path key : String} (hk : r.fileKey path = .ok key)
    (t : Turn) : (t.after (.bucket b) r).content? (.object b.store (.ofKey key))
      = (t.file? b r key).or (t.before.content? (.object b.store (.ofKey key))) := by
  obtain ⟨w, path | _ | source | bundle⟩ := t
  · exact getFile_moves path w _
  · exact download_moves w _
  · refine ((perform_uploadDir hr source w).1 _).trans (congrArg (Option.or · _) ?_)
    obtain ⟨names, -, rfl⟩ := Resource.exists_names_of_fileKey hk
    refine lastAt_ofKey fun e he hsame => ?_
    obtain ⟨names', -, hkey⟩ := exists_names_of_mem_puts he
    rw [hkey] at hsame ⊢
    rw [ObjectPath.ofKey_fileKey_inj hsame]
  · obtain ⟨-, c, -, hobjects⟩ | ⟨-, hkeeps⟩ := perform_uploadZip (b := b) hr bundle w
    · refine (hobjects _).trans (if_neg ?_)
      obtain ⟨names, hne, rfl⟩ := Resource.exists_names_of_fileKey hk
      exact ObjectPath.ofKey_fileKey_ne_bundle r hne
    · exact hkeeps _

/-- What every turn does to an object from what was there before is what the last turn that did
anything has left. -/
theorem content_of_run {put? : Turn → Option Content} {p : ObjectPath}
    (hturn : ∀ t : Turn, (t.after (.bucket b) r).content? (.object b.store p)
      = (put? t).or (t.before.content? (.object b.store p)))
    (h : Storage.Run (.bucket b) r b.Keeps w₀ ts w) :
    w.content? (.object b.store p) = (ts.findSome? put?).or (w₀.content? (.object b.store p)) := by
  induction h with
  | start => rfl
  | between _ hb ih => exact (hb p).trans ih
  | @turn ts w _ q ih =>
    rw [hturn, ih, List.findSome?_cons]
    cases put? ⟨w, q⟩ <;> rfl

/-- **After any run of requests, whatever the store refused, each object of a resource is the last
that was put, an upload put the files before its first failure, a link is given just if the bundle
is there and nothing is refused, and every error told what was refused.** -/
theorem ledger_of_run (hr : r.check = .ok ()) (h : Storage.Run (.bucket b) r b.Keeps w₀ ts w) :
    b.Ledger r w₀ ts w where
  bundle := content_of_run (bundle_turn hr) h
  file _ _ hk := content_of_run (file_turn hr hk) h
  complete t _ := complete_turn hr t
  link := exists_link_iff hr
  tells t _ := tells_turn t

/-- Failures to come are no objects. -/
theorem keeps_faults {name : String} (hb : b.store = .named name) (w : World)
    (faults : List Fault) : b.Keeps w (w.setStore name { w.store name with faults }) := by
  intro p
  rw [hb, World.content?, World.store_setStore, if_pos rfl]
  rfl

open Storage (modelBucket model src linkedSource)

/-- The world after a request for the model to the bucket. -/
abbrev afterBucketRequest (w : World) (q : Storage.Request) : World :=
  Turn.after (.bucket modelBucket) model ⟨w, q⟩

/-- The files of the model were uploaded. -/
def filledBucket : World :=
  afterBucketRequest linkedSource (.uploadDir src)

/-- One of the files was uploaded as the bundle. -/
def bundledBucket : World :=
  afterBucketRequest filledBucket (.uploadZip (.ofString "src/e"))

/-- The store of the bucket refuses the second object that is put. -/
def refusingBucket : World :=
  bundledBucket.setStore "models"
    { bundledBucket.store "models" with faults := [⟨.put, 1, .other⟩] }

/-- The turns that fill the bucket, and an upload that is refused half-way. -/
def bucketTurns : List Turn :=
  [⟨refusingBucket, .uploadDir src⟩, ⟨filledBucket, .uploadZip (.ofString "src/e")⟩,
    ⟨linkedSource, .uploadDir src⟩]

theorem run_bucketTurns : Storage.Run (.bucket modelBucket) model modelBucket.Keeps linkedSource
    bucketTurns (afterBucketRequest refusingBucket (.uploadDir src)) := by
  refine .turn (.between ?_ (keeps_faults rfl bundledBucket _)) (.uploadDir src)
  exact .turn (.turn .start (.uploadDir src)) (.uploadZip (.ofString "src/e"))

theorem ledger_of_run_refusingBucket :
    model.check = .ok () ∧
      Storage.Run (.bucket modelBucket) model modelBucket.Keeps linkedSource bucketTurns
        (afterBucketRequest refusingBucket (.uploadDir src)) ∧
      modelBucket.Ledger model linkedSource bucketTurns
        (afterBucketRequest refusingBucket (.uploadDir src)) ∧
      (bucketTurns.findSome? (Turn.bundle? modelBucket model)).isSome = true ∧
      (modelBucket.puts model.stem (refusingBucket.volume.filesIn src) refusingBucket).length
        = 1 := by
  have hr : model.check = .ok () := by decide
  exact ⟨hr, run_bucketTurns, ledger_of_run hr run_bucketTurns, by decide +kernel,
    by decide +kernel⟩

end Bucket

end Depot
