import Depot.Proofs.Folder.View
import Depot.Proofs.Volume.Descent

/-!
# Entries of the directory of the versions

What the calls that name an entry by its path do to what a folder shows: one that is there is not
missing (`view_of_stat_missing`), one that can be removed is (`sets_without`), one is moved in place
of nothing (`sets_rename`), one becomes a copy (`copyFile_cases`), and what stands beside the bundle
is an entry too (`beside_bundle`).
-/

namespace Depot

open Text Volume

/-- What stands beside an entry is another entry. -/
theorem Path.beside_join {p : Path} (hp : p.bytes ≠ []) (n : Name) {nonce : Bytes}
    (h : slash ∉ nonce) : (p.join ⟨n.bytes⟩).beside nonce = p.join ⟨(n.beside h).bytes⟩ := by
  obtain ⟨first, rest, ps, -, -, hpieces⟩ := exists_pieces_join p hp (isAbsolute_name n)
  rw [show pieces ⟨n.bytes⟩ = [n.bytes] from pieces_name n] at hpieces
  have hlast : (p.join ⟨n.bytes⟩).lastPiece? = some (first :: ps, n.bytes) := by
    rw [lastPiece?, hpieces]
    simp [trimEnd_concat_name]
  have hopened : p.opened = joinWith slash (first :: ps) ++ [slash] := by
    have hbytes := (bytes_join p (isAbsolute_name n)).symm.trans (bytes_eq_joinWith _)
    rw [hpieces, joinWith_append_cons (List.cons_ne_nil _ _), List.append_cons] at hbytes
    exact List.append_cancel_right hbytes
  rw [Path.beside, withExtension_eq hlast (n.bytes_beside h), Path.mk.injEq,
    bytes_join p (isAbsolute_name _), hopened, List.cons_append,
    joinWith_append_cons (List.cons_ne_nil _ _), List.append_assoc]
  rfl

namespace Folder

variable {f : Folder} {r : Resource} {v v' : Volume} {x : Place} {p : Place} {n m : Name}
  {c : Content}

/-! ## Looking at an entry -/

/-- What the system does not find is not there, or it is a link. -/
theorem view_of_stat_missing (hother : f.view r v [n] ≠ some .other)
    (h : v.stat ((f.leadPath r).join ⟨n.bytes⟩) = .error .notFound) : f.view r v [n] = none := by
  refine Option.eq_none_iff_forall_ne_some.mpr fun s hs => ?_
  obtain ⟨lead, fc, hl, hface, rfl⟩ := view_eq_some.mp hs
  refine existing_ne_notFound hl (Path.isAbsolute_name n) (Path.route_name n) hface ?_ ?_
  · rintro target rfl
    exact hother hs
  · unfold stat at h
    cases hex : v.existing .follow ((f.leadPath r).join ⟨n.bytes⟩) with
    | error k =>
      rw [hex] at h
      replace h : (Except.error k : Except IoKind FileKind) = .error .notFound := h
      exact congrArg Except.error (Except.error.inj h)
    | ok found =>
      rw [hex] at h
      exact absurd (show Except.ok found.2.kind = Except.error IoKind.notFound from h) (by simp)

/-- What the system finds is there. -/
theorem leads_of_stat {k : FileKind} {path : Path} (h : v.stat path = .ok k) :
    ∃ p, v.Leads path p := by
  obtain ⟨⟨p, node⟩, hex, -⟩ := bind_eq_ok.mp h
  exact ⟨p, node, hex⟩

/-! ## Removing an entry -/

/-- An entry of a directory that may be changed can be removed. -/
theorem exists_remove {s : Spot} (hr : r.check = .ok ())
    (hobeys : f.view r v [n] ≠ some .other) (hdir : f.view r v [n] ≠ some .directory)
    (hthere : f.view r v [n] ≠ none) (hs : v.find .keep ((f.leadPath r).join ⟨n.bytes⟩) = .ok s)
    (hchange : v.canChange s.directory = true) :
    ∃ v', v.remove ((f.leadPath r).join ⟨n.bytes⟩) = .ok v' := by
  obtain ⟨lead, hl, rfl⟩ := spot_of_entry hr hobeys hs
  obtain ⟨fc, hface⟩ : ∃ fc, v.face? (lead ++ [n]) = some fc := by
    rw [view_of_leads hl] at hthere
    exact Option.ne_none_iff_exists'.mp fun hnone => hthere (by rw [hnone]; rfl)
  obtain ⟨node, hnode, rfl⟩ := face?_eq_some.mp hface
  replace hnode : v.root.get? (lead ++ [n]) = some node := hnode
  rw [hnode] at hs
  refine ⟨_, remove_eq_ok.mpr ⟨lead, n, node, hs, hchange, ?_, rfl⟩⟩
  rw [Bool.eq_false_iff]
  intro hd
  obtain ⟨mode, hmode⟩ := isDirectory_iff.mp hd
  exact hdir (by rw [view_of_leads hl, hface, hmode]; rfl)

/-- An entry is missing after an attempt to remove it, if it could be removed. -/
theorem sets_without (hr : r.check = .ok ()) (hother : f.view r v [n] ≠ some .other)
    (hremove : f.view r v [n] ≠ none →
      ∃ v', v.remove ((f.leadPath r).join ⟨n.bytes⟩) = .ok v') :
    f.Sets r v [n] none (v.without ((f.leadPath r).join ⟨n.bytes⟩)) := by
  unfold Volume.without
  split
  · next v' hok => exact sets_remove hr hother hok
  · next k hk =>
    have hnone : f.view r v [n] = none := by
      by_contra hne
      obtain ⟨v', hok⟩ := hremove hne
      exact absurd (hk.symm.trans hok) (by simp)
    exact ⟨.refl v, hnone, fun _ _ _ => rfl, id⟩

/-! ## Moving an entry -/

/-- An entry is moved in place of nothing. -/
theorem sets_rename (hr : r.check = .ok ()) (hold : f.view r v [m] = some (.file c))
    (hnew : f.view r v [n] = none)
    (h : v.rename ((f.leadPath r).join ⟨m.bytes⟩) ((f.leadPath r).join ⟨n.bytes⟩) = .ok v') :
    ∃ v₁, f.Sets r v [m] none v₁ ∧ f.Sets r v₁ [n] (some (.file c)) v' ∧
      ∃ p, v'.Leads ((f.leadPath r).join ⟨n.bytes⟩) p := by
  have hne : n ≠ m := by
    rintro rfl
    exact absurd (hnew.symm.trans hold) (by simp)
  obtain ⟨old, new, m', n', node, hs, ht, hm, hn, hnode, -, h⟩ := rename_eq_ok h
  obtain ⟨lead, hl, rfl⟩ := spot_of_entry hr (by rw [hold]; simp) hs
  obtain ⟨lead', hl', rfl⟩ := spot_of_entry hr (by rw [hnew]; simp) ht
  obtain rfl := hl.inj hl'
  obtain rfl := Option.some.inj hm
  obtain rfl := Option.some.inj hn
  rw [view_of_leads hl] at hold hnew
  obtain ⟨fc, hface, hshape⟩ := Option.map_eq_some_iff.mp hold
  obtain ⟨mode, rfl⟩ := Face.shape_eq_file.mp hshape
  obtain rfl := Option.some.inj (hnode.symm.trans (node?_of_file hface))
  have hnone : v.face? (lead ++ [n]) = none := Option.map_eq_none_iff.mp hnew
  obtain ⟨dmode, hdir⟩ := exists_directory_of_face? hface
  have hdiff : ¬ lead ++ [m] = lead ++ [n] := fun he =>
    hne (List.cons.inj (List.append_cancel_left he)).1.symm
  obtain ⟨he, -⟩ | ⟨-, -, -, -, -, rfl⟩ := h
  · exact absurd he hdiff
  have hends : ∀ old, v.face? (lead ++ [m]) = some old → old.EndsHere := fun old ho =>
    Option.some.inj (hface.symm.trans ho) ▸ trivial
  have hp₁ := puts_erase hdir hnode fun _ _ => rfl
  have hsteady₁ := hp₁.steady hends (by simp)
  obtain ⟨hsets₁, -⟩ := At.sets ⟨lead, hl, rfl⟩ (List.cons_ne_nil m []) hp₁ hsteady₁
  have hdir₁ := hsteady₁.directory _ _ hdir
  have hnone₁ := (hp₁.face?_of_ne (lead ++ [n]) fun he => hdiff he.symm).trans hnone
  have hp₂ := puts_put (x := .file mode c) hdir₁ hnone₁ fun _ _ => rfl
  have hsteady₂ := hp₂.steady (fun old ho => absurd (hnone₁.symm.trans ho) (by simp))
    (by rintro _ ⟨⟩; trivial)
  obtain ⟨hsets₂, -⟩ := At.sets (f := f) (r := r) ⟨lead, hl.steady hsteady₁ hdir₁, rfl⟩
    (List.cons_ne_nil n []) hp₂ hsteady₂
  refine ⟨_, hsets₁, hsets₂, lead ++ [n], .file mode c, ?_⟩
  have hfind := (hsteady₁.trans hsteady₂).find ht
  refine leads_of_existing (existing_eq_ok.mpr
    ⟨_, hfind, rfl, ?_, fun hc => absurd hc Bool.false_ne_true⟩) rfl
  exact node?_of_file hp₂.face?_self

/-- An entry that was moved can be removed. -/
theorem exists_remove_of_rename (hr : r.check = .ok ()) (hne : m ≠ n)
    (hold : f.view r v [m] ≠ some .other) (hnew : f.view r v [n] ≠ some .other)
    (hmove : v.rename ((f.leadPath r).join ⟨m.bytes⟩) ((f.leadPath r).join ⟨n.bytes⟩) = .ok v')
    (hv : Steady v v') (hthere : f.view r v' [n] = some (.file c)) :
    ∃ v'', v'.remove ((f.leadPath r).join ⟨n.bytes⟩) = .ok v'' := by
  obtain ⟨old, new, hsold, hsnew, hchange⟩ := canChange_of_rename hmove
  have hplaces : old.place ≠ new.place := by
    obtain ⟨lead, hl, rfl⟩ := spot_of_entry hr hold hsold
    obtain ⟨lead', hl', rfl⟩ := spot_of_entry hr hnew hsnew
    obtain rfl := hl.inj hl'
    exact fun he => hne (List.cons.inj (List.append_cancel_left he)).1
  exact exists_remove hr (by simp [hthere]) (by simp [hthere]) (by simp [hthere]) (hv.find hsnew)
    (hv.canChange (hchange hplaces))

/-! ## Copying to an entry -/

/-- A copy changes nothing, or all of its source is copied, if the source can be read to its end
and written, and is elsewhere. -/
theorem copyFile_cases {source dest : Path} (hx : x ≠ []) (hother : f.view r v x ≠ some .other)
    (hat : ∀ s, v.find .create dest = .ok s → f.At r v x s.place)
    (hsource : ∀ q, v.Leads source q →
      (∃ c, v.readAt q = .ok c ∧ v.hasRoom c = true) ∧ ¬ f.At r v x q) :
    (∃ k, v.copyFile source dest = (.error k, v)) ∨ ∃ c v', v.copyFile source dest = (.ok (), v') ∧
      v.readFile source = .ok c ∧ f.Sets r v x (some (.file c)) v' := by
  unfold copyFile
  cases hopen : v.openFile source with
  | error k => exact .inl ⟨k, rfl⟩
  | ok q =>
    obtain ⟨⟨c, hread, hroom⟩, hapart⟩ := hsource q (leads_of_openFile hopen)
    obtain ⟨smode, hface⟩ := readAt_eq_ok.mp hread
    dsimp only
    rcases hcreate : v.createWith (v.modeAt q) dest with k | ⟨p, v₁⟩
    · exact .inl ⟨k, rfl⟩
    have hne : q ≠ p := by
      rintro rfl
      obtain ⟨s, hs, rfl, -⟩ := createWith_eq_ok hcreate
      exact hapart (hat s hs)
    obtain ⟨hsets₁, hat₁, mode, hface₁⟩ := sets_createWith hx hother hat hcreate
    obtain ⟨v₂, hmode, hputs⟩ := exists_setModeAt hface₁ (v.modeAt q)
    obtain ⟨hsets₂, hat₂⟩ := sets_refill hx hat₁ hface₁ hputs
    have hread₂ : v₂.readAt q = .ok c := by
      refine readAt_eq_ok.mpr ⟨smode, ?_⟩
      rw [hputs.face?_of_ne q hne, (find_of_createWith hcreate).2 q hne, hface]
    have hroom₂ : v₂.hasRoom c = true := by
      rwa [hasRoom_congr ((largest_setModeAt hmode).trans (largest_createWith hcreate))]
    refine .inr ⟨c, (v₂.writeAt p c).2, ?_, bind_eq_ok.mpr ⟨q, hopen, hread⟩, ?_⟩
    · dsimp only
      rw [hmode]
      exact copyAt_eq_ok.mpr ⟨c, hread₂, Prod.ext (writeAt_of_hasRoom hputs.face?_self hroom₂) rfl⟩
    · have hsets := (hsets₁.trans hsets₂).trans (sets_writeAt hx hat₂ hputs.face?_self c)
      rwa [arriving_of_hasRoom hroom₂] at hsets

/-! ## The entry beside the bundle -/

/-- The bundle is made under a name beside it. -/
theorem beside_bundle (f : Folder) (hr : r.check = .ok ()) {nonce : Bytes} (h : slash ∉ nonce) :
    (f.pathOf r.bundleKey).beside nonce
      = (f.leadPath r).join ⟨(r.bundleName.beside h).bytes⟩ := by
  rw [pathOf_bundleKey f hr]
  exact Path.beside_join (f.bytes_leadPath_ne_nil hr) r.bundleName h

end Folder

end Depot
