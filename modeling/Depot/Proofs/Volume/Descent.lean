import Depot.Proofs.Volume.Route

/-!
# Lookups that go down a tree

Where names lead on through directories that may be entered (`Volume.Passable`), the name after them
decides what a lookup comes to. It is refused if the name is too long, if there is no entry of that
name, or if the entry is no directory and something follows (`existing_of_long`,
`existing_of_missing`, `existing_of_blocked`). A lookup that succeeds, and meets no link, went
through such directories (`passable_of_find`).
-/

namespace Depot

/-- The system takes a path without a zero octet that is not too long. -/
def Path.Fits (p : Path) : Prop :=
  0 ∉ p.bytes ∧ p.bytes.length ≤ Volume.maxPath

instance (p : Path) : Decidable p.Fits :=
  inferInstanceAs (Decidable (_ ∧ _))

namespace Volume

variable {v : Volume} {root q : Path} {d : Place} {before after : List Name} {n : Name}
  {last : Last} {closed : Bool}

/-- The names lead on from a directory through directories that may be entered. -/
structure Passable (v : Volume) (d : Place) (before : List Name) : Prop where
  entered : ∀ q, q <+: before → entered (v.face? (d ++ q)) = .ok ()
  short : ∀ n ∈ before, n.bytes.length ≤ maxName

theorem Passable.mono {before' : List Name} (h : v.Passable d before) (hp : before' <+: before) :
    v.Passable d before' :=
  ⟨fun q hq => h.entered q (hq.trans hp), fun n hn => h.short n (hp.subset hn)⟩

theorem Passable.tail (h : v.Passable d (n :: before)) : v.Passable (d ++ [n]) before := by
  refine ⟨fun q hq => ?_, fun m hm => h.short m (List.mem_cons_of_mem n hm)⟩
  rw [List.append_assoc]
  exact h.entered (n :: q) (List.cons_prefix_cons.mpr ⟨rfl, hq⟩)

theorem target?_of_entered {p : Place} (h : entered (v.face? p) = .ok ()) :
    (v.root.get? p).isNone = false ∧ target? (v.root.get? p) = none := by
  obtain ⟨mode, hface, -⟩ := entered_eq_ok.mp h
  obtain ⟨entries, hnode⟩ := node?_of_directory hface
  rw [show v.root.get? p = _ from hnode]
  exact ⟨rfl, rfl⟩

/-- A hop passes the directories. -/
theorem hop_of_passable (h : v.Passable d before) {rest : List Segment} (hne : rest ≠ []) :
    hop v.root last closed d (before.map .name ++ rest)
      = hop v.root last closed (d ++ before) rest := by
  induction before generalizing d with
  | nil => rw [List.append_nil, List.map_nil, List.nil_append]
  | cons n before ih =>
    have hd : entered (v.root.face? d) = .ok () :=
      List.append_nil d ▸ h.entered [] List.nil_prefix
    have hn := h.entered [n] (List.cons_prefix_cons.mpr ⟨rfl, List.nil_prefix⟩)
    obtain ⟨hsome, htarget⟩ := target?_of_entered hn
    rw [List.map_cons, List.cons_append, hop_cons (by simp [hne]), hd, pass, passName]
    change (if _ then _ else _) = _
    rw [if_neg (Nat.not_lt.mpr (h.short n List.mem_cons_self)), hsome, htarget,
      if_neg Bool.false_ne_true]
    exact (ih h.tail).trans (by rw [List.append_assoc]; rfl)

/-- A hop along names that meets no link passes directories up to the last name. -/
theorem passable_of_hop {r : Hop} (hlinks : ∀ q target, v.face? (d ++ q) ≠ some (.link target))
    (h : hop v.root last closed d ((before ++ [n]).map .name) = .ok r) :
    v.Passable d before ∧ n.bytes.length ≤ maxName := by
  induction before generalizing d with
  | nil =>
    constructor
    · refine ⟨fun q hq => ?_, fun m hm => absurd hm List.not_mem_nil⟩
      rw [List.prefix_nil.mp hq, List.append_nil]
      exact entered_of_hop (by simp) h
    · rw [List.nil_append, List.map_singleton, hop_name] at h
      obtain ⟨⟨⟩, -, h⟩ := bind_eq_ok.mp h
      exact (arrive_eq_ok.mp h).2.1
  | cons m before ih =>
    have hd : entered (v.face? d) = .ok () := entered_of_hop (by simp) h
    rw [List.cons_append, List.map_cons, hop_cons (by simp)] at h
    obtain ⟨⟨⟩, -, h⟩ := bind_eq_ok.mp h
    obtain ⟨hshort, -, ⟨target, ht, -⟩ | ⟨-, h⟩⟩ := passName_eq_ok.mp h
    · exact absurd (target?_eq_some.mp ht) (hlinks [m] target)
    · obtain ⟨hrest, hn⟩ :=
        ih (fun q target => List.append_assoc d [m] q ▸ hlinks (m :: q) target) h
      refine ⟨⟨fun q hq => ?_, List.forall_mem_cons.mpr ⟨hshort, hrest.short⟩⟩, hn⟩
      cases q with
      | nil => rwa [List.append_nil]
      | cons m' q =>
        obtain ⟨rfl, hq'⟩ := List.cons_prefix_cons.mp hq
        have hstep := hrest.entered q hq'
        rwa [List.append_assoc] at hstep

/-! ## The name after the directories -/

/-- What a name after which nothing follows leads to. -/
theorem hop_last {p : Place} (hd : entered (v.face? p) = .ok ()) (n : Name) :
    hop v.root .follow closed p [.name n] = arrive .follow closed p n (v.root.get? (p ++ [n])) := by
  rw [hop_name, show entered (v.root.face? p) = _ from hd]
  rfl

/-- What a name after which something follows leads to. -/
theorem hop_further {p : Place} (hd : entered (v.face? p) = .ok ()) (n : Name)
    {rest : List Segment} (hne : rest ≠ []) : hop v.root last closed p (.name n :: rest)
      = passName v.root last closed p rest n (v.root.get? (p ++ [n])) := by
  rw [hop_cons (fun _ _ => hne), show entered (v.root.face? p) = _ from hd]
  rfl

section Entered

variable {p : Place} (hd : entered (v.face? p) = .ok ())
include hd

theorem hop_of_long (hlong : maxName < n.bytes.length) :
    hop v.root .follow closed p ((n :: after).map .name) = .error .invalidFilename := by
  cases after with
  | nil => rw [List.map_singleton, hop_last hd, arrive, if_neg (by simp), if_pos hlong]
  | cons m after => rw [List.map_cons, hop_further hd n (by simp), passName, if_pos hlong]

variable (hshort : n.bytes.length ≤ maxName)
include hshort

theorem hop_of_missing (hnone : v.face? (p ++ [n]) = none) :
    hop v.root .follow closed p ((n :: after).map .name) = .error .notFound ∨
      hop v.root .follow closed p ((n :: after).map .name)
        = .ok (.spot ⟨p, some n, none, closed⟩) := by
  have hget : v.root.get? (p ++ [n]) = none := Node.face?_eq_none.mp hnone
  cases after with
  | nil =>
    right
    rw [List.map_singleton, hop_last hd, arrive, if_neg (by simp), if_neg (Nat.not_lt.mpr hshort),
      hget]
    rfl
  | cons m after =>
    left
    rw [List.map_cons, hop_further hd n (by simp), passName, if_neg (Nat.not_lt.mpr hshort), hget]
    rfl

theorem hop_of_blocked {fc : Face} (hface : v.face? (p ++ [n]) = some fc) (hends : fc.EndsHere)
    (hne : after ≠ []) :
    hop v.root .follow closed p ((n :: after).map .name) = .error .notADirectory := by
  obtain ⟨node, hnode, rfl⟩ := face?_eq_some.mp hface
  have hget : v.root.get? (p ++ [n]) = some node := hnode
  have htarget : target? (some node) = none := by
    cases node with
    | link target => exact absurd hends id
    | _ => rfl
  have hblocked : entered (v.root.face? (p ++ [n])) = .error .notADirectory := by
    rw [show v.root.face? (p ++ [n]) = _ from hface]
    cases node with
    | directory mode entries => exact absurd hends id
    | _ => rfl
  have hmap : after.map Segment.name ≠ [] := by simpa using hne
  rw [List.map_cons, hop_further hd n hmap, passName, if_neg (Nat.not_lt.mpr hshort), hget, htarget]
  exact hop_of_not_entered hmap hblocked

theorem hop_of_directory {mode : Mode} (hface : v.face? (p ++ [n]) = some (.directory mode)) :
    ∃ node, node.face = .directory mode ∧ hop v.root .follow closed p [.name n]
      = .ok (.spot ⟨p, some n, some node, closed⟩) := by
  obtain ⟨node, hnode, hf⟩ := face?_eq_some.mp hface
  have hget : v.root.get? (p ++ [n]) = some node := hnode
  refine ⟨node, hf, ?_⟩
  rw [hop_last hd, arrive, if_neg (by simp), if_neg (Nat.not_lt.mpr hshort), hget]
  cases node with
  | link target => exact absurd hf (by simp [Node.face])
  | _ => rfl

end Entered

/-! ## Lookups -/

theorem find_of_not_fits (v : Volume) (last : Last) {path : Path} (h : ¬ path.Fits) :
    ∃ k, k ≠ .notFound ∧ v.find last path = .error k := by
  unfold find
  by_cases h0 : 0 ∈ path.bytes
  · exact ⟨.invalidInput, by simp, if_pos h0⟩
  · have hlong : maxPath < path.bytes.length := Nat.not_le.mp fun hle => h ⟨h0, hle⟩
    exact ⟨.invalidFilename, by simp, by rw [if_neg h0, if_pos hlong]⟩

/-- A lookup that succeeds went through directories, if there are no links. -/
theorem passable_of_find {s : Spot} (hroot : v.Leads root d) (hq : q.isAbsolute = false)
    (hr : q.route = (before ++ [n]).map .name)
    (hlinks : ∀ q target, v.face? (d ++ q) ≠ some (.link target))
    (h : v.find last (root.join q) = .ok s) :
    v.Passable d before ∧ n.bytes.length ≤ maxName := by
  obtain ⟨d', hops, hd', hl⟩ :=
    exists_locate_of_find_join hroot.bytes_ne_nil hq hr (by simp) h
  obtain rfl := hroot.inj hd'
  rw [locate_succ] at hl
  obtain ⟨r, hhop, -⟩ := bind_eq_ok.mp hl
  exact passable_of_hop hlinks hhop

section Join

variable (hroot : v.Leads root d) (hq : q.isAbsolute = false)
include hroot hq

/-- Behind a path that leads somewhere, a lookup goes on from there. -/
theorem exists_find_eq_hop {names : List Name} (hr : q.route = names.map .name) (hne : names ≠ [])
    (hfits : (root.join q).Fits) : ∃ hops, v.find .follow (root.join q)
      = hop v.root .follow (root.join q).isClosed d (names.map .name)
        >>= locate v.root .follow hops := by
  obtain ⟨node, hnode⟩ := hroot
  obtain ⟨t, ht, rfl, htn, -⟩ := existing_eq_ok.mp hnode
  have htl := (find_eq_ok.mp ht).2
  have hfind : v.find .follow (root.join q) = locate v.root .follow (maxLinks + 1)
      (.onward (if root.isAbsolute then [] else v.here) (root.route ++ names.map .name)
        (root.join q).isClosed) := by
    have hbytes : (root.join q).bytes ≠ [] := fun he =>
      (find_eq_ok.mp ht).1.2.2 (List.prefix_nil.mp (he ▸ Path.bytes_prefix_join root hq))
    rw [find, if_neg hfits.1, if_neg (Nat.not_lt.mpr hfits.2), if_neg hbytes,
      Path.isAbsolute_join hq, Path.route_join root hq, hr]
  obtain ⟨k, hk, -⟩ | ⟨s, hs, hcases⟩ :=
    @locate_append v.root .follow (root.join q).isClosed (if root.isAbsolute then [] else v.here)
      (names.map .name) (by simpa using hne) root.isClosed (maxLinks + 1) root.route
  · exact absurd (htl.symm.trans hk) (by simp)
  obtain rfl := Except.ok.inj (hs.symm.trans htl)
  obtain ⟨hnone, -⟩ | ⟨-, hops, -, hl⟩ := hcases
  · exact absurd (hnone.symm.trans htn) (by simp)
  exact ⟨hops, by rw [hfind, hl, locate_succ]⟩

/-- What is an entry, and no link, may be out of reach, but it is not missing. -/
theorem existing_ne_notFound (hr : q.route = [.name n]) {fc : Face}
    (hface : v.face? (d ++ [n]) = some fc) (hlink : ∀ target, fc ≠ .link target) :
    v.existing .follow (root.join q) ≠ .error .notFound := by
  obtain ⟨node, hnode, rfl⟩ := face?_eq_some.mp hface
  have hget : v.root.get? (d ++ [n]) = some node := hnode
  have htarget : target? (some node) = none := by
    cases node with
    | link target => exact absurd rfl (hlink target)
    | _ => rfl
  obtain ⟨mode, hd⟩ := exists_directory_of_face? hface
  by_cases hfits : (root.join q).Fits
  · have hnames : q.route = [n].map .name := hr
    obtain ⟨hops, hfind⟩ := exists_find_eq_hop hroot hq hnames (List.cons_ne_nil n []) hfits
    rw [existing, hfind, List.map_singleton, hop_name, show v.root.face? d = _ from hd, entered]
    by_cases henters : mode.enters = true
    · rw [if_pos henters, hget, arrive, if_neg (by simp), htarget]
      by_cases hlong : maxName < n.bytes.length
      · rw [if_pos hlong]
        exact fun h => absurd (Except.error.inj h) (by simp)
      · rw [if_neg hlong]
        change (locate _ _ _ _ >>= _) ≠ _
        rw [locate_spot]
        change (if _ then _ else _) ≠ _
        split
        · exact fun h => absurd (Except.error.inj h) (by simp)
        · rintro ⟨⟩
    · rw [if_neg henters]
      exact fun h => absurd (Except.error.inj h) (by simp)
  · obtain ⟨k, hk, hfind⟩ := v.find_of_not_fits .follow hfits
    rw [existing, hfind]
    exact fun h => hk (Except.error.inj h)

variable (hr : q.route = (before ++ n :: after).map .name) (hpass : v.Passable d before)
  (hfits : (root.join q).Fits)
include hr hpass hfits

/-- Behind directories that are passed, a lookup goes on from the last one. -/
theorem exists_find_eq : ∃ hops, v.find .follow (root.join q)
    = hop v.root .follow (root.join q).isClosed (d ++ before) ((n :: after).map .name)
      >>= locate v.root .follow hops := by
  obtain ⟨hops, hfind⟩ := exists_find_eq_hop hroot hq hr (by simp) hfits
  exact ⟨hops, by rw [hfind, List.map_append, hop_of_passable hpass (by simp)]⟩

theorem existing_of_long (hlong : maxName < n.bytes.length) :
    v.existing .follow (root.join q) = .error .invalidFilename := by
  obtain ⟨hops, hfind⟩ := exists_find_eq hroot hq hr hpass hfits
  rw [hop_of_long (hpass.entered before (List.prefix_refl before)) hlong] at hfind
  rw [existing, hfind]
  rfl

theorem existing_of_missing (hshort : n.bytes.length ≤ maxName)
    (hnone : v.face? (d ++ (before ++ [n])) = none) :
    v.existing .follow (root.join q) = .error .notFound := by
  obtain ⟨hops, hfind⟩ := exists_find_eq hroot hq hr hpass hfits
  rw [← List.append_assoc] at hnone
  rw [existing, hfind]
  obtain hhop | hhop := @hop_of_missing v after n (root.join q).isClosed (d ++ before)
    (hpass.entered before (List.prefix_refl before)) hshort hnone
  · rw [hhop]
    rfl
  · rw [hhop]
    change (locate _ _ _ _ >>= _) = _
    rw [locate_spot]
    rfl

theorem existing_of_blocked (hshort : n.bytes.length ≤ maxName) {fc : Face}
    (hface : v.face? (d ++ (before ++ [n])) = some fc) (hends : fc.EndsHere) (hne : after ≠ []) :
    v.existing .follow (root.join q) = .error .notADirectory := by
  obtain ⟨hops, hfind⟩ := exists_find_eq hroot hq hr hpass hfits
  rw [← List.append_assoc] at hface
  rw [hop_of_blocked (hpass.entered before (List.prefix_refl before)) hshort hface hends hne]
    at hfind
  rw [existing, hfind]
  rfl

theorem existing_of_directory (hshort : n.bytes.length ≤ maxName) {mode : Mode}
    (hface : v.face? (d ++ (before ++ [n])) = some (.directory mode)) (hlast : after = []) :
    ∃ p node, node.face = .directory mode ∧ v.existing .follow (root.join q) = .ok (p, node) := by
  subst hlast
  obtain ⟨hops, hfind⟩ := exists_find_eq hroot hq hr hpass hfits
  rw [← List.append_assoc] at hface
  obtain ⟨node, hnode, hhop⟩ := @hop_of_directory v n (root.join q).isClosed (d ++ before)
    (hpass.entered before (List.prefix_refl before)) hshort mode hface
  rw [List.map_singleton, hhop] at hfind
  refine ⟨_, node, hnode, existing_eq_ok.mpr ⟨_, hfind.trans (locate_spot _ _ _ _), rfl, rfl, ?_⟩⟩
  exact fun _ => isDirectory_iff.mpr ⟨mode, hnode⟩

end Join

end Volume

end Depot
