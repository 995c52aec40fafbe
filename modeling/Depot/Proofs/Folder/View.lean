import Depot.Proofs.Folder.Containment
import Depot.Proofs.Folder.Failure
import Depot.Proofs.Volume.Trail

/-!
# What a folder shows of a resource

All that a folder keeps of a resource stands in the directory of the versions (`Resource.Own`): the
tree, the bundle and, while `zip_dir` makes it, the bundle under another name. `Folder.view` is what
is found there, name by name, as a `Shape`; of permissions it says nothing.

A `Rule` says which shapes may be where. `Folder.Obeys` is a rule for what a folder keeps in a
volume in which the base is a directory. One place at a time may change (`Obeys.sets`); what is made
with the parents of a path are directories on the way (`Obeys.makeDirectories`), because the keys of
a resource climb to the directory of the versions from the base, or from the root if the owner
begins with a slash, and on from there.

An owner or a kind with a part `..` leads out of directories that may be missing yet, and so out of
the places that the path says. What such a resource finds then is only known of a volume in which
nothing comes to light when directories are made (`Folder.Apparent`).

* `Obeys.putFile` is `put_file` of the sink, whatever comes of it.
* `Obeys.uploadDir` is `upload_dir` from the discard of the bundle on.

Out of scope: permissions, and what else is in the directory of the versions.
-/

namespace Depot

open Text Volume

namespace Resource

variable {r : Resource}

/-- The name under which a bundle is made, with the nonce of a number. -/
def temporaryName (r : Resource) (k : Nat) : Name :=
  r.bundleName.beside (World.slash_not_mem_nonceDigits k)

theorem temporaryName_ne_treeName (k : Nat) : r.temporaryName k ≠ r.treeName := by
  intro he
  have hdot : dot ∈ (r.temporaryName k).bytes := List.mem_append_right _ List.mem_cons_self
  rw [he] at hdot
  have hchar : '.' ∈ r.treeEntry.toList := (mem_encode_ascii (c := '.') (by decide)).mp hdot
  exact absurd (isDigit_of_mem_repr hchar) (by decide)

theorem temporaryName_ne_bundleName (k : Nat) : r.temporaryName k ≠ r.bundleName := by
  intro he
  have hzip : encode ".zip" <:+ r.bundleName.bytes := ⟨encode r.treeEntry, (encode_append _ _).symm⟩
  have htmp : encode ".tmp" <:+ (r.temporaryName k).bytes := by
    refine List.IsSuffix.trans ?_ (List.suffix_append _ _)
    exact (List.suffix_append _ _).trans (List.suffix_cons _ _)
  rw [he] at htmp
  have hsame := (List.suffix_of_suffix_length_le htmp hzip (by decide)).eq_of_length (by decide)
  exact absurd hsame (by decide)

theorem tree_ne_temporary (q : List Name) (k : Nat) : r.treeName :: q ≠ [r.temporaryName k] :=
  fun he => temporaryName_ne_treeName k (List.cons.inj he).1.symm

theorem bundle_ne_temporary (k : Nat) : [r.bundleName] ≠ [r.temporaryName k] :=
  fun he => temporaryName_ne_bundleName k (List.cons.inj he).1.symm

/-- Where a folder keeps a resource, seen from the directory of the versions. -/
inductive Own (r : Resource) : Place → Prop where
  | tree (q : Place) : Own r (r.treeName :: q)
  | bundle : Own r [r.bundleName]
  | temporary (k : Nat) : Own r [r.temporaryName k]

theorem Own.ne_nil {x : Place} (h : r.Own x) : x ≠ [] := by
  cases h <;> simp

end Resource

/-- What a node looks like apart from its permissions. -/
inductive Shape where
  | file (content : Content)
  | directory
  | other

/-- What a node looks like apart from its permissions; what is neither a file with a content nor a
directory is not told apart. -/
def Face.shape : Face → Shape
  | .file _ content => .file content
  | .directory _ => .directory
  | .link _ | .socket | .faulty _ => .other

theorem Face.shape_eq_file {fc : Face} {c : Content} :
    fc.shape = .file c ↔ ∃ mode, fc = .file mode c := by
  cases fc <;> simp [Face.shape]

theorem Face.shape_eq_directory {fc : Face} :
    fc.shape = .directory ↔ ∃ mode, fc = .directory mode := by
  cases fc <;> simp [Face.shape]

namespace Folder

variable {f : Folder} {r : Resource} {v v' : Volume} {lead : Place} {x : Place}

/-! ## What is shown -/

/-- What is found at a place below the directory of the versions. -/
def view (f : Folder) (r : Resource) (v : Volume) (x : Place) : Option Shape :=
  match v.existing .follow (f.leadPath r) with
  | .ok (lead, _) => (v.face? (lead ++ x)).map Face.shape
  | .error _ => none

theorem view_of_leads (h : v.Leads (f.leadPath r) lead) (x : Place) :
    f.view r v x = (v.face? (lead ++ x)).map Face.shape := by
  obtain ⟨node, hn⟩ := h
  rw [view, hn]

theorem view_eq_none (h : ∀ lead, ¬ v.Leads (f.leadPath r) lead) (x : Place) :
    f.view r v x = none := by
  unfold view
  split
  · next lead node hn => exact absurd ⟨node, hn⟩ (h lead)
  · rfl

theorem view_eq_some {s : Shape} : f.view r v x = some s ↔
    ∃ lead fc, v.Leads (f.leadPath r) lead ∧ v.face? (lead ++ x) = some fc ∧ fc.shape = s := by
  constructor
  · intro h
    by_cases hlead : ∃ lead, v.Leads (f.leadPath r) lead
    · obtain ⟨lead, hl⟩ := hlead
      rw [view_of_leads hl] at h
      obtain ⟨fc, hfc, hs⟩ := Option.map_eq_some_iff.mp h
      exact ⟨lead, fc, hl, hfc, hs⟩
    · rw [view_eq_none fun lead hl => hlead ⟨lead, hl⟩] at h
      exact absurd h (by simp)
  · rintro ⟨lead, fc, hl, hfc, rfl⟩
    rw [view_of_leads hl, hfc]
    rfl

/-- What is shown is shown after directories are made. -/
theorem view_adds {s : Shape} (hadds : Adds v v') (h : f.view r v x = some s) :
    f.view r v' x = some s := by
  obtain ⟨lead, fc, hl, hfc, hs⟩ := view_eq_some.mp h
  exact view_eq_some.mpr ⟨lead, fc, hadds.leads hl id, hadds.kept _ id fc hfc, hs⟩

/-! ## Where a folder can keep a resource -/

/-- All that is where the folder keeps a resource is apparent: whatever directories are made, no
more than directories comes to light there. -/
def Apparent (f : Folder) (r : Resource) (v : Volume) : Prop :=
  ∀ v', Adds v v' → ∀ x, r.Own x →
    f.view r v' x = f.view r v x ∨ f.view r v' x = some .directory

/-- Nothing comes to light if the directory of the versions is there. -/
theorem apparent_of_leads (hl : v.Leads (f.leadPath r) lead) : f.Apparent r v := by
  intro v' hadds x _
  rw [view_of_leads hl, view_of_leads (hadds.leads hl id)]
  cases hfc : v'.face? (lead ++ x) with
  | none =>
    refine .inl (congrArg _ (Option.eq_none_iff_forall_ne_some.mpr fun fc hold => ?_)).symm
    exact absurd ((hadds.kept _ id fc hold).symm.trans hfc) (by simp)
  | some fc =>
    obtain hold | ⟨-, mode, rfl⟩ := hadds.new _ id fc hfc
    · exact .inl (congrArg _ hold.symm)
    · exact .inr rfl

theorem Apparent.adds (h : f.Apparent r v) (hadds : Adds v v') : f.Apparent r v' := by
  intro v'' hadds' x hx
  cases hview : f.view r v' x with
  | some s => exact .inl (view_adds hadds' hview)
  | none =>
    obtain hsame | hdir := h v' hadds x hx
    · rw [← hview, hsame]
      exact h v'' (hadds.trans hadds') x hx
    · exact absurd (hview.symm.trans hdir) (by simp)

/-- The base of a folder is a directory, and if the resource goes up then all that is where the
folder keeps it is apparent. -/
structure Grounded (f : Folder) (r : Resource) (v : Volume) : Prop where
  base : ∃ c mode, v.Leads f.base c ∧ v.face? c = some (.directory mode)
  apparent : r.GoesUp → f.Apparent r v

/-- The base stays a directory. -/
theorem Grounded.steady (h : f.Grounded r v) (hv : Steady v v')
    (happarent : f.Apparent r v → f.Apparent r v') : f.Grounded r v' := by
  obtain ⟨c, mode, hc, hm⟩ := h.base
  have hm' := hv.directory c mode hm
  exact ⟨⟨c, mode, hc.steady hv hm', hm'⟩, fun hup => happarent (h.apparent hup)⟩

theorem Grounded.adds (h : f.Grounded r v) (hadds : Adds v v') : f.Grounded r v' :=
  h.steady hadds.toSteady fun happarent => happarent.adds hadds

theorem Grounded.bytes_base_ne_nil (h : f.Grounded r v) : f.base.bytes ≠ [] :=
  let ⟨_, _, hc, _⟩ := h.base
  hc.bytes_ne_nil

/-- Unless the resource goes up, its directory of the versions is on the way down from a directory
that is there: the base, or the root. -/
theorem Grounded.exists_climbs (h : f.Grounded r v) (hr : r.check = .ok ()) (hup : ¬ r.GoesUp) :
    ∃ q c names, Path.Climbs q names (f.leadPath r) ∧ v.Leads q c := by
  obtain ⟨c, mode, hc, hm⟩ := h.base
  by_cases ha : r.owner.toList.head? = some '/'
  · obtain ⟨names, hclimbs⟩ := exists_climbs_root (f := f) hr hup ha
    exact ⟨_, [], names, hclimbs, leads_root hm⟩
  · have hd : r.Descends := ⟨ha, fun ho => hup (.inl ho), fun hk => hup (.inr hk)⟩
    obtain ⟨names, hclimbs⟩ := exists_climbs_leadPath hr hd hc.bytes_ne_nil
    exact ⟨_, c, names, hclimbs, leads_trimmed hc hm⟩

/-- Which shapes may be where. -/
abbrev Rule := Place → Option Shape → Prop

/-- A rule holds of all that a folder keeps of a resource. -/
structure Obeys (f : Folder) (r : Resource) (rule : Rule) (v : Volume) : Prop
    extends Grounded f r v where
  shown : ∀ x, r.Own x → rule x (f.view r v x)

variable {rule : Rule}

theorem Obeys.face (h : f.Obeys r rule v) (hl : v.Leads (f.leadPath r) lead) (hx : r.Own x) :
    rule x ((v.face? (lead ++ x)).map Face.shape) :=
  view_of_leads hl x ▸ h.shown x hx

theorem Obeys.no_other (h : f.Obeys r rule v) (hx : r.Own x) (hother : ¬ rule x (some .other)) :
    f.view r v x ≠ some .other := fun he => hother (he ▸ h.shown x hx)

/-! ## One place that changes -/

/-- A path leads to a place below the directory of the versions. -/
def At (f : Folder) (r : Resource) (v : Volume) (x p : Place) : Prop :=
  ∃ lead, v.Leads (f.leadPath r) lead ∧ p = lead ++ x

theorem At.view {p : Place} (h : f.At r v x p) :
    f.view r v x = (v.face? p).map Face.shape := by
  obtain ⟨lead, hl, rfl⟩ := h
  exact view_of_leads hl x

theorem At.behind {n : Name} {p : Place} (h : f.At r v [n] p) (q : Place) :
    f.view r v (n :: q) = (v.face? (p ++ q)).map Face.shape := by
  obtain ⟨lead, hl, rfl⟩ := h
  rw [view_of_leads hl, List.append_cons]

theorem At.no_link {n : Name} {p : Place} (h : f.At r v [n] p)
    (hother : ∀ q, f.view r v (n :: q) ≠ some .other) (q : Place) (target : Path) :
    v.face? (p ++ q) ≠ some (.link target) :=
  fun ht => hother q (by rw [h.behind, ht]; rfl)

/-- One place below the directory of the versions comes to show something, and no other changes. -/
structure Sets (f : Folder) (r : Resource) (v : Volume) (x : Place) (s : Option Shape)
    (v' : Volume) : Prop extends Steady v v' where
  self : f.view r v' x = s
  other : ∀ y, y ≠ [] → y ≠ x → f.view r v' y = f.view r v y
  apparent : f.Apparent r v → f.Apparent r v'

theorem Sets.trans {v'' : Volume} {s s' : Option Shape} (h : f.Sets r v x s v')
    (h' : f.Sets r v' x s' v'') : f.Sets r v x s' v'' :=
  ⟨h.toSteady.trans h'.toSteady, h'.self,
    fun y hy hyx => (h'.other y hy hyx).trans (h.other y hy hyx), h'.apparent ∘ h.apparent⟩

theorem At.sets {p : Place} {fc : Option Face} (hat : f.At r v x p) (hx : x ≠ [])
    (hp : Puts v p fc v') (hv : Steady v v') :
    f.Sets r v x (fc.map Face.shape) v' ∧ f.At r v' x p := by
  obtain ⟨lead, hl, rfl⟩ := hat
  have hl' : v'.Leads (f.leadPath r) lead := by
    obtain ⟨lc, hlc⟩ := hl.exists_face
    exact hl.steady hv ((hp.face?_of_ne lead (by simpa using hx)).trans hlc)
  refine ⟨⟨hv, ?_, fun y _ hyx => ?_, fun _ => apparent_of_leads hl'⟩, lead, hl', rfl⟩
  · rw [view_of_leads hl', hp.face?_self]
  · rw [view_of_leads hl', view_of_leads hl,
      hp.face?_of_ne _ fun he => hyx (List.append_cancel_left he)]

/-- What changes at one place may be what the rule lets be there. -/
theorem Obeys.sets {s : Option Shape} (h : f.Obeys r rule v) (hs : f.Sets r v x s v')
    (hrule : rule x s) : f.Obeys r rule v' := by
  refine ⟨h.toGrounded.steady hs.toSteady hs.apparent, fun y hy => ?_⟩
  by_cases hyx : y = x
  · rw [hyx, hs.self]
    exact hrule
  · rw [hs.other y hy.ne_nil hyx]
    exact h.shown y hy

/-! ## Directories on the way -/

/-- The directories that are made on the way to an entry may be where the rule lets directories
be. -/
theorem Obeys.makeDirectories {p : Path} {names : List Name} (hr : r.check = .ok ())
    (h : f.Obeys r rule v) (hp : Path.Climbs (f.leadPath r) names p)
    (hlinks : ∀ x, x ≠ [] → x <+: names → r.Own x ∧ ¬ rule x (some .other))
    (hrule : ∀ x, r.Own x → x <+: names ∨ r.GoesUp → rule x (some .directory)) :
    f.Obeys r rule (v.makeDirectories p).2 := by
  have hadds := adds_makeDirectories v p
  by_cases hgoes : r.GoesUp
  · refine ⟨h.toGrounded.adds hadds, fun x hx => ?_⟩
    obtain hsame | hdir := h.apparent hgoes _ hadds x hx
    · exact hsame ▸ h.shown x hx
    · exact hdir ▸ hrule x hx (.inr hgoes)
  obtain ⟨q, c, above, hup, hq⟩ := h.toGrounded.exists_climbs hr hgoes
  have hpaved := paved_makeDirectories (hup.trans hp) hq
  generalize (v.makeDirectories p).2 = v' at hadds hpaved
  refine ⟨h.toGrounded.adds hadds, fun x hx => ?_⟩
  cases hview : f.view r v' x with
  | none =>
    have hnone : f.view r v x = none := Option.eq_none_iff_forall_ne_some.mpr fun s hs =>
      absurd (hview.symm.trans (view_adds hadds hs)) (by simp)
    exact hnone ▸ h.shown x hx
  | some s =>
    obtain ⟨l, fc, hl, hfc, rfl⟩ := view_eq_some.mp hview
    have hbelow := hpaved.below hadds hup hp hl (fun before target hb hpre hl ht => ?_) hfc
    · obtain ⟨hl, hold⟩ | ⟨-, hpre, mode, rfl⟩ := hbelow
      · have hface := h.face hl hx
        rwa [hold] at hface
      · exact hrule x hx (.inl hpre)
    · obtain ⟨hown, hother⟩ := hlinks before hb hpre
      have hface := h.face hl hown
      rw [ht] at hface
      exact hother hface

/-! ## Files that are written -/

/-- An entry of the directory of the versions is at its place, unless it is a link. -/
theorem spot_of_entry {last : Last} {s : Spot} {n : Name} (hr : r.check = .ok ())
    (hother : f.view r v [n] ≠ some .other)
    (hs : v.find last ((f.leadPath r).join ⟨n.bytes⟩) = .ok s) :
    ∃ lead, v.Leads (f.leadPath r) lead ∧
      s = ⟨lead, some n, v.root.get? (lead ++ [n]), false⟩ := by
  have hclosed : ((f.leadPath r).join ⟨n.bytes⟩).isClosed = false := by
    rw [Path.isClosed_join _ n.ordinary.1]
    exact Bool.eq_false_iff.mpr fun he => Path.nil_not_mem_pieces_of_names
      (Path.pieces_name n) (Path.nil_mem_pieces (.inr he))
  obtain ⟨lead, hl, hspot | ⟨-, target, ht⟩⟩ := spot_or_link_of_find (f.enters_leadPath hr n) hs
  · exact ⟨lead, hl, hclosed ▸ hspot⟩
  · exact absurd (by rw [view_of_leads hl, ht]; rfl) hother

/-- What the path of an entry leads to is the entry, unless it is a link. -/
theorem at_of_leads {n : Name} {p : Place} (hr : r.check = .ok ())
    (hother : f.view r v [n] ≠ some .other)
    (h : v.Leads ((f.leadPath r).join ⟨n.bytes⟩) p) : f.At r v [n] p := by
  obtain ⟨lead, hl, he | ⟨target, ht⟩⟩ := leads_entry (f.enters_leadPath hr n) h
  · exact ⟨lead, hl, he⟩
  · exact absurd (by rw [view_of_leads hl, ht]; rfl) hother

theorem at_tree {p : Place} (hr : r.check = .ok ()) (hother : f.view r v [r.treeName] ≠ some .other)
    (h : v.Leads (f.pathOf r.stem) p) : f.At r v [r.treeName] p :=
  at_of_leads hr hother (pathOf_stem f hr ▸ h)

/-- A file of the tree is at its place if there are no links in the tree. -/
theorem place_of_file {last : Last} {s : Spot} {names : List Name} (hr : r.check = .ok ())
    (hother : ∀ q, f.view r v (r.treeName :: q) ≠ some .other) (hne : names ≠ [])
    (hs : v.find last (f.pathOf (r.stem ++ "/" ++ Resource.relativeKey names)) = .ok s) :
    f.At r v (r.treeName :: names.map Name.shown) s.place := by
  obtain ⟨d, hd, hplace⟩ := place_of_find_file hne hs
  have htree := at_tree hr (hother []) hd
  have hs := (hplace (htree.no_link hother)).1
  obtain ⟨lead, hl, rfl⟩ := htree
  exact ⟨lead, hl, hs.trans (List.append_assoc ..)⟩

variable {path : Path} {p : Place} {c : Content}

/-- A file is made or emptied at its place. -/
theorem sets_createWith {mode : Mode} (hx : x ≠ []) (hother : f.view r v x ≠ some .other)
    (hat : ∀ s, v.find .create path = .ok s → f.At r v x s.place)
    (hc : v.createWith mode path = .ok (p, v')) :
    f.Sets r v x (some (.file .empty)) v' ∧ f.At r v' x p ∧
      ∃ mode, v'.face? p = some (.file mode .empty) := by
  obtain ⟨s, hs, rfl, hcases⟩ := createWith_eq_ok hc
  have hat := hat s hs
  obtain ⟨hnone, hp⟩ | ⟨old, c', hold, hp⟩ | ⟨hfaulty, -⟩ := hcases
  · obtain ⟨hsets, hat'⟩ := hat.sets hx hp
      (hp.steady (fun old ho => absurd (hnone.symm.trans ho) (by simp)) (by rintro _ ⟨⟩; trivial))
    exact ⟨hsets, hat', _, hp.face?_self⟩
  · obtain ⟨hsets, hat'⟩ := hat.sets hx hp
      (hp.steady (fun old ho => Option.some.inj (hold.symm.trans ho) ▸ trivial)
        (by rintro _ ⟨⟩; trivial))
    exact ⟨hsets, hat', _, hp.face?_self⟩
  · obtain ⟨given, hfaulty⟩ := hfaulty
    exact absurd (by rw [hat.view, hfaulty]; rfl) hother

/-- A file stays one with another content or other permissions. -/
theorem sets_refill {mode mode' : Mode} {c' : Content} (hx : x ≠ []) (hat : f.At r v x p)
    (hface : v.face? p = some (.file mode c)) (hp : Puts v p (some (.file mode' c')) v') :
    f.Sets r v x (some (.file c')) v' ∧ f.At r v' x p :=
  hat.sets hx hp (hp.steady (fun old ho => Option.some.inj (hface.symm.trans ho) ▸ trivial)
    (by rintro _ ⟨⟩; trivial))

/-- An emptied file gets at its place what arrives of a content. -/
theorem sets_writeAt {mode : Mode} (hx : x ≠ []) (hat : f.At r v x p)
    (hface : v.face? p = some (.file mode .empty)) (c : Content) :
    f.Sets r v x (some (.file (v.arriving c))) (v.writeAt p c).2 := by
  obtain ⟨mode', -, hp⟩ := puts_writeAt hface c
  exact (sets_refill hx hat hface hp).1

/-! ## Entries -/

section Entry

variable {n : Name} (hr : r.check = .ok ()) (hother : f.view r v [n] ≠ some .other)
include hr hother

/-- An entry that is removed is missing. -/
theorem sets_remove (h : v.remove ((f.leadPath r).join ⟨n.bytes⟩) = .ok v') :
    f.Sets r v [n] none v' := by
  obtain ⟨d, m, node, hs, hchange, hdir, rfl⟩ := remove_eq_ok.mp h
  have hputs := puts_remove hs hchange hdir
  have hface : v.face? (d ++ [m]) = some node.face :=
    face?_eq_some.mpr ⟨node, (sound_of_find hs).get?_place rfl, rfl⟩
  obtain ⟨lead, hl, hspot⟩ := spot_of_entry hr hother hs
  obtain ⟨rfl, hn, -⟩ := Spot.mk.inj hspot
  obtain rfl := Option.some.inj hn
  have hat : f.At r v [m] (d ++ [m]) := ⟨d, hl, rfl⟩
  refine (hat.sets (List.cons_ne_nil _ _) hputs (hputs.steady (fun old ho => ?_) (by simp))).1
  obtain rfl := Option.some.inj (hface.symm.trans ho)
  cases node with
  | directory mode entries => exact absurd hdir (by simp [Node.isDirectory])
  | link target => exact absurd (by rw [hat.view, hface]; rfl) hother
  | _ => trivial

end Entry

/-- An entry that is removed, if the system lets it, may be missing where the rule lets it. -/
theorem Obeys.without {n : Name} (hr : r.check = .ok ()) (h : f.Obeys r rule v) (hn : r.Own [n])
    (hother : ¬ rule [n] (some .other)) (hnone : rule [n] none) :
    f.Obeys r rule (v.without ((f.leadPath r).join ⟨n.bytes⟩)) := by
  unfold Volume.without
  split
  · next v' hremove =>
    exact h.sets (sets_remove hr (h.no_other hn hother) hremove) hnone
  · exact h

/-! ## Uploads of files -/

theorem volume_makeParent (w : World) {p p' : Path} (h : p.parent? = some p') :
    (w.perform (makeParent p).run).2.volume = (w.volume.makeDirectories p').2 := by
  rw [makeParent, h]
  rfl

variable {w : World} {names : List Name}

/-- Where a rule lets a file of an upload be, and directories on the way to it. -/
structure Admits (r : Resource) (rule : Rule) (names : List Name) : Prop where
  directory : ∀ x, r.Own x → x <+: r.treeName :: (names.map Name.shown).dropLast ∨ r.GoesUp →
    rule x (some .directory)
  file : ∀ c, rule (r.treeName :: names.map Name.shown) (some (.file c))

/-- What is written into a file that is made or emptied, all of it or a part, may be where the rule
lets files be. -/
theorem Obeys.write (h : f.Obeys r rule v) (hx : r.Own x) (hother : ¬ rule x (some .other))
    (hrule : ∀ c, rule x (some (.file c)))
    (hat : ∀ s, v.find .create path = .ok s → f.At r v x s.place)
    (hcreate : v.create path = .ok (p, v')) :
    f.Obeys r rule v' ∧ ∀ c, f.Obeys r rule (v'.writeAt p c).2 := by
  obtain ⟨hsets, hat, mode, hface⟩ :=
    sets_createWith hx.ne_nil (h.no_other hx hother) hat hcreate
  have h' : f.Obeys r rule v' := h.sets hsets (hrule .empty)
  exact ⟨h', fun c => h'.sets (sets_writeAt hx.ne_nil hat hface c) (hrule _)⟩

/-- Whatever comes of it, a file that is put may be where the rule lets it be. -/
theorem Obeys.putFile (hr : r.check = .ok ()) (h : f.Obeys r rule w.volume)
    (hother : ∀ q, ¬ rule (r.treeName :: q) (some .other)) (hne : names ≠ [])
    (hrule : Admits r rule names) (source : Handle) :
    f.Obeys r rule (w.perform (Folder.putFile (f.pathOf r.stem) (Resource.relativeKey names)
      source).run).2.volume := by
  obtain ⟨parent, hparent, hup⟩ := climbs_parent hr h.bytes_base_ne_nil hne
  rw [Folder.putFile, ← pathOf_fileKey, World.perform_bind_action]
  have hdirs : f.Obeys r rule (w.perform
      (makeParent (f.pathOf (r.stem ++ "/" ++ Resource.relativeKey names))).run).2.volume := by
    rw [volume_makeParent w hparent]
    refine h.makeDirectories hr hup (fun x hx hpre => ?_) hrule.directory
    obtain ⟨n, q, rfl⟩ := List.exists_cons_of_ne_nil hx
    rw [(List.cons_prefix_cons.mp hpre).1]
    exact ⟨.tree q, hother q⟩
  rcases hw : w.perform (makeParent (f.pathOf (r.stem ++ "/" ++ Resource.relativeKey names))).run
    with ⟨e | u, w₁⟩ <;> rw [hw] at hdirs
  · exact hdirs
  replace hdirs : f.Obeys r rule w₁.volume := hdirs
  dsimp only
  rw [volume_fill]
  rcases hcreate : w₁.volume.create (f.pathOf (r.stem ++ "/" ++ Resource.relativeKey names)) with
    k | ⟨out, v⟩
  · exact hdirs
  · have hat : ∀ s, w₁.volume.find .create
        (f.pathOf (r.stem ++ "/" ++ Resource.relativeKey names)) = .ok s →
        f.At r w₁.volume (r.treeName :: names.map Name.shown) s.place := fun s hs =>
      place_of_file hr (fun q => hdirs.no_other (.tree q) (hother q)) hne hs
    dsimp only
    rw [copyAt_snd]
    exact (hdirs.write (.tree _) (hother _) hrule.file hat hcreate).2 _

/-- Whatever comes of it, an upload of files leaves them where the rule lets them be. -/
theorem Obeys.handOver (hr : r.check = .ok ()) (h : f.Obeys r rule w.volume)
    (hother : ∀ q, ¬ rule (r.treeName :: q) (some .other)) {files : List SourceFile}
    (hfiles : ∀ file ∈ files, ∃ names, names ≠ [] ∧ file.key = Resource.relativeKey names ∧
      Admits r rule names) :
    f.Obeys r rule
      (w.perform (handOver (Folder.putFile (f.pathOf r.stem)) files).run).2.volume := by
  induction files generalizing w with
  | nil => exact h
  | cons file rest ih =>
    rw [World.perform_handOver_cons]
    cases w.volume.openFile file.path with
    | error k => exact h
    | ok source =>
      obtain ⟨names, hne, hkey, hrule⟩ := hfiles file List.mem_cons_self
      have hput := h.putFile hr hother hne hrule source
      rw [← hkey] at hput
      dsimp only
      rcases hw : w.perform (Folder.putFile (f.pathOf r.stem) file.key source).run with
        ⟨e | u, w₁⟩ <;> rw [hw] at hput
      · exact hput
      · exact ih hput fun f hf => hfiles f (List.mem_cons_of_mem _ hf)

/-- Whatever comes of it, an upload of a folder leaves files where the rule lets them be, once the
bundle is discarded. -/
theorem Obeys.uploadDir (hr : r.check = .ok ())
    (hwithout : f.Obeys r rule (w.volume.without (f.pathOf r.bundleKey)))
    (hother : ∀ q, ¬ rule (r.treeName :: q) (some .other))
    {source : Path} (hfiles : ∀ file ∈ (w.volume.without (f.pathOf r.bundleKey)).filesIn source,
      ∃ names, names ≠ [] ∧ file.key = Resource.relativeKey names ∧ Admits r rule names) :
    f.Obeys r rule (w.perform (f.uploadDir r source).run).2.volume := by
  rw [Folder.uploadDir, World.perform_bind_of_ok (World.perform_checkResource hr w),
    World.perform_bind_of_ok (perform_discardBundle w), uploadEach_eq, World.perform_bind_action]
  generalize hw : { w with volume := w.volume.without (f.pathOf r.bundleKey) } = w₁
  have hvolume : w.volume.without (f.pathOf r.bundleKey) = w₁.volume := by rw [← hw]
  rw [hvolume] at hwithout hfiles
  obtain ⟨-, hsources⟩ | ⟨-, e, hsources⟩ := w₁.perform_sourceFiles source <;> rw [hsources]
  · exact hwithout.handOver hr hother hfiles
  · exact hwithout

end Folder

end Depot
