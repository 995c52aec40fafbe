import Depot.Proofs.Folder.Bundles
import Depot.Proofs.Race

/-!
# The terms between an upload and a download

An upload of files on the left (`upload_dir`) races with a download of the same resource on the
right (`download`). The calls that they make say what the bundle is once the upload has discarded
it:

* `Folder.movedIn?` is the archive that the download has moved in since then, if it has.
* `Folder.Tallies` says that this is the bundle; before the discard it says that the bundle can be
  removed.

The upload brings no bundle and leaves the files alone that become bundles (`Folder.ByUpload`), and
the download leaves the tree alone (`Folder.ByDownload`). Each call is admitted by a lemma for what
it sets: a place in the tree (`admits_upload_of_sets`), a file beside the bundle
(`admits_download_of_sets`), the bundle (`admits_move`), or nothing (`admits_of_same`).
-/

namespace Depot

open Text Volume Terms

theorem Moment.volume_remove (m : Moment) (side : Side) (p : Path) :
    (m.after side (.remove p)).world.volume = m.world.volume.without p :=
  congrArg World.volume (World.after_remove m.world p)

namespace Folder

variable {f : Folder} {r : Resource} {m m' : Moment} {v v' : Volume} {x : Place} {p : Place}
  {c : Call}

/-! ## What the calls say -/

/-- The upload has discarded the bundle. -/
def Discarded (events : List Event) : Prop :=
  ∃ p reply, ⟨.left, .remove p, reply⟩ ∈ events

/-- The archive that the download wrote last. -/
def written? : List Event → Option Content
  | [] => none
  | ⟨.right, .write _ c, _⟩ :: _ => some c
  | _ :: events => written? events

/-- The archive that the download has moved to the bundle since the upload discarded it. -/
def movedIn? : List Event → Option Content
  | [] => none
  | ⟨.left, .remove _, _⟩ :: _ => none
  | ⟨.right, .rename _ _, .ok ()⟩ :: events => written? events
  | _ :: events => movedIn? events

/-- The download has moved nothing in. -/
def Unmoved (events : List Event) : Prop :=
  ∀ p q reply, ⟨.right, .rename p q, reply⟩ ∉ events

/-- The download lists files. -/
def isListing : Event → Bool
  | ⟨.right, .walk _, _⟩ => true
  | _ => false

/-- The upload makes no call after the download lists files. -/
def Settled (events : List Event) : Prop :=
  events.Pairwise fun e e₀ => isListing e₀ = true → e.side = .right

instance (events : List Event) : Decidable (Settled events) :=
  inferInstanceAs (Decidable (events.Pairwise fun e e₀ => isListing e₀ = true → e.side = .right))

variable {events : List Event} {reply : c.Reply}

theorem Unmoved.append {late : List Event} (h : Unmoved events)
    (hlate : ∀ e ∈ late, e.side = .right → ∀ p q, e.call ≠ .rename p q) :
    Unmoved (late ++ events) := by
  intro p q reply hmem
  rcases List.mem_append.mp hmem with hmem | hmem
  · exact hlate _ hmem rfl p q rfl
  · exact h p q reply hmem

theorem Unmoved.movedIn? (h : Unmoved events) : movedIn? events = none := by
  induction events with
  | nil => rfl
  | cons e events ih =>
    obtain ⟨side, c, reply⟩ := e
    have hrest := ih fun p q reply hmem => h p q reply (List.mem_cons_of_mem _ hmem)
    cases side with
    | left => cases c <;> first | rfl | exact hrest
    | right =>
      cases c with
      | rename p q => exact absurd List.mem_cons_self (h p q reply)
      | _ => exact hrest

theorem written?_append {late : List Event} (h : ∀ e ∈ late, e.side = .left) :
    written? (late ++ events) = written? events := by
  induction late with
  | nil => rfl
  | cons e late ih =>
    obtain ⟨hside, hlate⟩ := List.forall_mem_cons.mp h
    obtain ⟨side, c, reply⟩ := e
    obtain rfl : side = .left := hside
    exact ih hlate

theorem movedIn?_left (h : ∀ p, c ≠ .remove p) :
    movedIn? (⟨.left, c, reply⟩ :: events) = movedIn? events := by
  cases c with
  | remove p => exact absurd rfl (h p)
  | _ => rfl

theorem movedIn?_right (h : ∀ p q, c ≠ .rename p q) :
    movedIn? (⟨.right, c, reply⟩ :: events) = movedIn? events := by
  cases c with
  | rename p q => exact absurd rfl (h p q)
  | _ => rfl

theorem movedIn?_of_moved {p q : Path} {reply : Except IoKind Unit} (h : reply = .ok ()) :
    movedIn? (⟨.right, .rename p q, reply⟩ :: events) = written? events := by
  subst h
  rfl

theorem movedIn?_of_unmoved {p q : Path} {reply : Except IoKind Unit} {k : IoKind}
    (h : reply = .error k) :
    movedIn? (⟨.right, .rename p q, reply⟩ :: events) = movedIn? events := by
  subst h
  rfl

theorem Discarded.append (late : List Event) (h : Discarded events) :
    Discarded (late ++ events) := by
  obtain ⟨p, reply, hmem⟩ := h
  exact ⟨p, reply, List.mem_append_right late hmem⟩

theorem discarded_append {late : List Event}
    (h : ∀ e ∈ late, e.side = .left → ∀ p, e.call ≠ .remove p) :
    Discarded (late ++ events) ↔ Discarded events := by
  refine ⟨fun ⟨p, reply, hmem⟩ => ?_, .append late⟩
  rcases List.mem_append.mp hmem with hlate | hmem
  · exact absurd rfl (h _ hlate rfl p)
  · exact ⟨p, reply, hmem⟩

theorem discarded_left (h : ∀ p, c ≠ .remove p) :
    Discarded (⟨.left, c, reply⟩ :: events) ↔ Discarded events :=
  discarded_append (List.forall_mem_singleton.mpr fun _ => h)

theorem discarded_right : Discarded (⟨.right, c, reply⟩ :: events) ↔ Discarded events :=
  discarded_append (List.forall_mem_singleton.mpr (by simp))

/-! ## The terms of the race -/

/-- What a folder keeps of a resource are files and directories, and the bundle is no directory. -/
def upkeep (r : Resource) : Rule := fun x s =>
  s ≠ some .other ∧ (x = [r.bundleName] → s ≠ some .directory)

/-- The bundle can be removed. -/
def Disposes (f : Folder) (r : Resource) (v : Volume) : Prop :=
  ∃ v', v.remove (f.pathOf r.bundleKey) = .ok v'

/-- The bundle is what the calls say, once it was discarded; before that it can be removed. -/
structure Tallies (f : Folder) (r : Resource) (m : Moment) : Prop where
  obeys : f.Obeys r (upkeep r) m.world.volume
  bundle : Discarded m.events →
    f.view r m.world.volume [r.bundleName] = (movedIn? m.events).map .file
  disposes : ¬ Discarded m.events → f.view r m.world.volume [r.bundleName] ≠ none →
    f.Disposes r m.world.volume

theorem Tallies.no_other (h : f.Tallies r m) (hx : r.Own x) :
    f.view r m.world.volume x ≠ some .other :=
  (h.obeys.shown x hx).1

theorem Tallies.no_directory (h : f.Tallies r m) :
    f.view r m.world.volume [r.bundleName] ≠ some .directory :=
  (h.obeys.shown _ .bundle).2 rfl

/-- What an upload does: it brings no bundle, and it leaves the files alone that become bundles. -/
structure ByUpload (f : Folder) (r : Resource) (m m' : Moment) : Prop where
  steady : Steady m.world.volume m'.world.volume
  temporary : ∀ k, f.view r m'.world.volume [r.temporaryName k]
    = f.view r m.world.volume [r.temporaryName k]
  missing : f.view r m.world.volume [r.bundleName] = none →
    f.view r m'.world.volume [r.bundleName] = none

/-- What a download does: it leaves the tree alone. -/
structure ByDownload (f : Folder) (r : Resource) (m m' : Moment) : Prop where
  steady : Steady m.world.volume m'.world.volume
  tree : ∀ q, f.view r m'.world.volume (r.treeName :: q) = f.view r m.world.volume (r.treeName :: q)

instance (f : Folder) (r : Resource) : IsPreorder Moment (f.ByUpload r) where
  refl _ := ⟨.refl _, fun _ => rfl, id⟩
  trans _ _ _ h h' := ⟨h.steady.trans h'.steady,
    fun k => (h'.temporary k).trans (h.temporary k), h'.missing ∘ h.missing⟩

instance (f : Folder) (r : Resource) : IsPreorder Moment (f.ByDownload r) where
  refl _ := ⟨.refl _, fun _ => rfl⟩
  trans _ _ _ h h' := ⟨h.steady.trans h'.steady, fun q => (h'.tree q).trans (h.tree q)⟩

/-- What the calls of the upload, on the left, and of the download, on the right, do. -/
def does (f : Folder) (r : Resource) : Side → Moment → Moment → Prop
  | .left => f.ByUpload r
  | .right => f.ByDownload r

theorem isPreorder_does (f : Folder) (r : Resource) (side : Side) :
    IsPreorder Moment (f.does r side) := by
  cases side with
  | left => exact inferInstanceAs (IsPreorder Moment (f.ByUpload r))
  | right => exact inferInstanceAs (IsPreorder Moment (f.ByDownload r))

/-- The terms of a race between an upload and a download. -/
def terms (f : Folder) (r : Resource) : Terms where
  inv := f.Tallies r
  does := f.does r
  preorder := isPreorder_does f r

/-- A bundle that can be removed stays so while it is there. -/
theorem Disposes.steady (hr : r.check = .ok ()) (h : f.Disposes r v) (hv : Steady v v')
    (hobeys : f.Obeys r (upkeep r) v') (hbundle : f.view r v' [r.bundleName] ≠ none) :
    f.Disposes r v' := by
  obtain ⟨v₁, hremove⟩ := h
  obtain ⟨d, n, node, hs, hchange, -, -⟩ := remove_eq_ok.mp hremove
  have hshown := hobeys.shown _ .bundle
  rw [Disposes, pathOf_bundleKey f hr]
  rw [pathOf_bundleKey f hr] at hs
  exact exists_remove hr hshown.1 (hshown.2 rfl) hbundle (hv.find hs)
    (hv.canChange hchange)

theorem Tallies.next (hr : r.check = .ok ()) (h : f.Tallies r m) {side : Side}
    (hobeys : f.Obeys r (upkeep r) (m.after side c).world.volume)
    (hsteady : Steady m.world.volume (m.after side c).world.volume)
    (hbundle : f.view r (m.after side c).world.volume [r.bundleName]
      = f.view r m.world.volume [r.bundleName])
    (hmoved : movedIn? (m.after side c).events = movedIn? m.events)
    (hdiscarded : Discarded (m.after side c).events ↔ Discarded m.events) :
    f.Tallies r (m.after side c) := by
  refine ⟨hobeys, fun hd => ?_, fun hd hne => ?_⟩
  · rw [hbundle, hmoved, h.bundle (hdiscarded.mp hd)]
  · have hbefore : f.view r m.world.volume [r.bundleName] ≠ none := by rwa [hbundle] at hne
    exact (h.disposes (mt hdiscarded.mpr hd) hbefore).steady hr hsteady hobeys hne

/-- The upload may change the tree. -/
theorem admits_upload (hr : r.check = .ok ()) (h : f.Tallies r m) (hc : ∀ p, c ≠ .remove p)
    (hobeys : f.Obeys r (upkeep r) (m.after .left c).world.volume)
    (hsteady : Steady m.world.volume (m.after .left c).world.volume)
    (hbeside : ∀ n, r.Own [n] → n ≠ r.treeName → f.view r (m.after .left c).world.volume [n]
      = f.view r m.world.volume [n]) : (f.terms r).Admits .left m c := by
  have hbundle := hbeside r.bundleName .bundle r.treeName_ne_bundleName.symm
  exact ⟨h.next hr hobeys hsteady hbundle (movedIn?_left hc) (discarded_left hc), hsteady,
    fun k => hbeside _ (.temporary k) (Resource.temporaryName_ne_treeName k), hbundle.trans⟩

/-- The download may change what stands beside the tree and the bundle. -/
theorem admits_download (hr : r.check = .ok ()) (h : f.Tallies r m)
    (hmoved : movedIn? (m.after .right c).events = movedIn? m.events)
    (hobeys : f.Obeys r (upkeep r) (m.after .right c).world.volume)
    (hsteady : Steady m.world.volume (m.after .right c).world.volume)
    (htree : ∀ q, f.view r (m.after .right c).world.volume (r.treeName :: q)
      = f.view r m.world.volume (r.treeName :: q))
    (hbundle : f.view r (m.after .right c).world.volume [r.bundleName]
      = f.view r m.world.volume [r.bundleName]) : (f.terms r).Admits .right m c :=
  ⟨h.next hr hobeys hsteady hbundle hmoved discarded_right, hsteady, htree⟩

/-- The upload may change a place in the tree. -/
theorem admits_upload_of_sets {q : Place} {s : Option Shape} (hr : r.check = .ok ())
    (h : f.Tallies r m) (hc : ∀ p, c ≠ .remove p)
    (hsets : f.Sets r m.world.volume (r.treeName :: q) s (m.after .left c).world.volume)
    (hs : s ≠ some .other) : (f.terms r).Admits .left m c := by
  have hrule : upkeep r (r.treeName :: q) s :=
    ⟨hs, fun he => absurd he (r.tree_ne_bundle q)⟩
  exact admits_upload hr h hc (h.obeys.sets hsets hrule) hsets.toSteady
    fun n _ hn => hsets.other [n] (by simp) fun he => hn (List.cons.inj he).1

/-- The download may change a name under which bundles are made. -/
theorem admits_download_of_sets {k : Nat} {s : Option Shape} (hr : r.check = .ok ())
    (h : f.Tallies r m) (hc : ∀ p q, c ≠ .rename p q)
    (hsets : f.Sets r m.world.volume [r.temporaryName k] s (m.after .right c).world.volume)
    (hs : s ≠ some .other) : (f.terms r).Admits .right m c := by
  have hbundle : [r.bundleName] ≠ [r.temporaryName k] := Resource.bundle_ne_temporary k
  exact admits_download hr h (movedIn?_right hc)
    (h.obeys.sets hsets ⟨hs, fun he => absurd he.symm hbundle⟩) hsets.toSteady
    (fun q => hsets.other _ (by simp) (Resource.tree_ne_temporary q k))
    (hsets.other _ (by simp) hbundle)

/-- The download may move its archive in place of nothing. -/
theorem admits_move {k : Nat} {content : Content} (hr : r.check = .ok ()) (h : f.Tallies r m)
    (hview : f.view r m.world.volume [r.temporaryName k] = some (.file content))
    (hfree : f.view r m.world.volume [r.bundleName] = none)
    (hmove : m.world.volume.rename ((f.leadPath r).join ⟨(r.temporaryName k).bytes⟩)
      ((f.leadPath r).join ⟨r.bundleName.bytes⟩) = .ok (m.after .right c).world.volume)
    (hmoved : movedIn? (m.after .right c).events = some content) :
    (f.terms r).Admits .right m c := by
  have hne : r.temporaryName k ≠ r.bundleName := Resource.temporaryName_ne_bundleName k
  obtain ⟨v₁, hsets₁, hsets₂, -⟩ := sets_rename hr hview hfree hmove
  have hsteady := hsets₁.toSteady.trans hsets₂.toSteady
  refine ⟨⟨?_, fun _ => ?_, fun _ _ => ?_⟩, hsteady, fun q => ?_⟩
  · refine (h.obeys.sets hsets₁ ⟨by simp, by simp⟩).sets hsets₂ ⟨by simp, by simp⟩
  · rw [hmoved]
    exact hsets₂.self
  · -- The discard may still be to come, and it has to succeed on what is moved in here.
    rw [Disposes, pathOf_bundleKey f hr]
    exact exists_remove_of_rename hr hne (by simp [hview]) (by simp [hfree]) hmove hsteady
      hsets₂.self
  · rw [hsets₂.other _ (by simp) (r.tree_ne_bundle q)]
    exact hsets₁.other _ (by simp) (Resource.tree_ne_temporary q k)

/-- A call of the download that changes nothing is admitted. -/
theorem admits_unmoved (hr : r.check = .ok ()) (h : f.Tallies r m)
    (hmoved : movedIn? (m.after .right c).events = movedIn? m.events)
    (hv : (m.after .right c).world.volume = m.world.volume) : (f.terms r).Admits .right m c := by
  refine admits_download hr h hmoved (hv ▸ h.obeys) (hv ▸ .refl _) (fun q => ?_) ?_ <;> rw [hv]

/-- A call that changes nothing is admitted, if it is no discard and no move. -/
theorem admits_of_same {side : Side} (hr : r.check = .ok ()) (h : f.Tallies r m)
    (hremove : side = .left → ∀ p, c ≠ .remove p)
    (hrename : side = .right → ∀ p q, c ≠ .rename p q)
    (hv : (m.after side c).world.volume = m.world.volume) : (f.terms r).Admits side m c := by
  cases side with
  | left =>
    refine admits_upload hr h (hremove rfl) (hv ▸ h.obeys) (hv ▸ .refl _) ?_
    exact fun n _ _ => by rw [hv]
  | right => exact admits_unmoved hr h (movedIn?_right (hrename rfl)) hv

/-! ## Calls that only look -/

variable {side : Side} {P : Volume → Prop}

/-- What is known of the volume. -/
def On (P : Volume → Prop) (m : Moment) : Prop :=
  P m.world.volume

theorem abides_quiet (c : Call) (hr : r.check = .ok ()) (hc : c.Quiet) {Q : c.Reply → Volume → Prop}
    (hP : (f.terms r).Stable side (On P)) (hQ : ∀ a, (f.terms r).Stable side (On (Q a)))
    (h : ∀ m, f.Tallies r m → P m.world.volume → Q (m.reply c) m.world.volume) :
    (Procedure.ofCall c).Abides (f.terms r) side (On P) fun a => On (Q a) := by
  refine .ofCall hP hQ fun m hinv hp => ⟨?_, ?_⟩
  · exact admits_of_same hr hinv (by rintro - p rfl; exact hc) (by rintro - p q rfl; exact hc)
      (m.volume_after_quiet side hc)
  · rw [On, m.volume_after_quiet side hc]
    exact h m hinv hp

/-- A look changes nothing that is known of the volume. -/
theorem abides_look (c : Call) (hr : r.check = .ok ()) (hc : c.Quiet)
    (hP : (f.terms r).Stable side (On P)) :
    (Procedure.ofCall c).Abides (f.terms r) side (On P) fun _ => On P :=
  abides_quiet c hr hc hP (fun _ => hP) fun _ _ hp => hp

theorem steady_of_waits (h : (f.terms r).Waits side m m') :
    Steady m.world.volume m'.world.volume := by
  cases side with
  | left => exact ByDownload.steady h.does
  | right => exact ByUpload.steady h.does

theorem stable_directory (path : Path) :
    (f.terms r).Stable side (On fun v => v.stat path = .ok .directory) :=
  fun _ _ _ hwaits h => (steady_of_waits hwaits).stat_directory h

/-! ## Files that are made -/

/-- The place below the directory of the versions where a file is written that was emptied. -/
structure Opened (f : Folder) (r : Resource) (x p : Place) (v : Volume) : Prop where
  spot : f.At r v x p
  empty : f.view r v x = some (.file .empty)

theorem Opened.steady {n : Name} {q : Place} (h : f.Opened r (n :: q) p v) (hv : Steady v v')
    (hsame : f.view r v' (n :: q) = f.view r v (n :: q)) : f.Opened r (n :: q) p v' := by
  refine ⟨?_, hsame.trans h.empty⟩
  obtain ⟨lead, hl, rfl⟩ := h.spot
  obtain ⟨lead', fc, hl', hfc, -⟩ := view_eq_some.mp h.empty
  obtain rfl := hl.inj hl'
  obtain ⟨mode, hdir⟩ := exists_directory_of_face? hfc
  exact ⟨lead, hl.steady hv (hv.directory lead mode hdir), rfl⟩

/-- What arrives of a content that is written into an emptied file stands at its place. -/
theorem Opened.sets (h : f.Opened r x p v) (hx : x ≠ []) (content : Content) :
    f.Sets r v x (some (.file (v.arriving content))) (v.writeAt p content).2 := by
  have hview := h.spot.view.symm.trans h.empty
  obtain ⟨fc, hface, hshape⟩ := Option.map_eq_some_iff.mp hview
  obtain ⟨mode, rfl⟩ := Face.shape_eq_file.mp hshape
  exact sets_writeAt hx h.spot hface content

/-- A file is made or emptied, or nothing changes. -/
theorem created {path : Path} (m : Moment) (side : Side) (hx : x ≠ [])
    (hother : f.view r m.world.volume x ≠ some .other)
    (hat : ∀ s, m.world.volume.find .create path = .ok s → f.At r m.world.volume x s.place) :
    (∃ k, m.reply (.create path) = .error k ∧
      (m.after side (.create path)).world.volume = m.world.volume) ∨
    ∃ p, m.reply (.create path) = .ok p ∧
      f.Sets r m.world.volume x (some (.file .empty))
        (m.after side (.create path)).world.volume ∧
      f.Opened r x p (m.after side (.create path)).world.volume := by
  obtain hsame | ⟨p, hreply, hcreate⟩ := m.create_cases side path
  · exact .inl hsame
  · obtain ⟨hsets, hat', -⟩ := sets_createWith hx hother hat hcreate
    exact .inr ⟨p, hreply, hsets, hat', hsets.self⟩

end Folder

end Depot
