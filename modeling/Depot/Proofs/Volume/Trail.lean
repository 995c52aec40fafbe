import Depot.Proofs.Volume.Above

/-!
# Directories that are made with those above them

`makeDirectories` makes the directories of a path from the first one on that is missing. If the
parents of the path climb up to one that leads to a directory, all that it makes is on the way from
there (`Paved`, `paved_makeDirectories`): each new directory stands at a place on that way, below a
place where nothing was. This is so whether it succeeds or stops half-way.

Files are stored below such directories by `put_file` and `upload_zip` of a `LocalStorage`.
-/

namespace Depot.Volume

open Depot.Path

variable {v v' v'' : Volume} {q p p₁ : Path} {names : List Name} {n : Name} {c x : Place}

/-! ## Parents that lead somewhere -/

/-- If a path leads somewhere then so do its parents. -/
theorem exists_leads_of_climbs (h : Climbs q names p) (hp : v.Leads p x) : ∃ c, v.Leads q c := by
  induction h generalizing x with
  | here => exact ⟨x, hp⟩
  | up _ _ hn ih =>
    obtain ⟨d, hd, -⟩ := leads_entry hn hp
    exact ih hd

/-- Names lead on from the place of a parent where no links are on the way. -/
theorem place_of_climbs (h : Climbs q names p) (hq : v.Leads q c)
    (hlinks : ∀ more target, more ≠ [] → more <+: names → v.face? (c ++ more) ≠ some (.link target))
    (hp : v.Leads p x) : x = c ++ names := by
  induction h generalizing x with
  | here => rw [List.append_nil]; exact hp.inj hq
  | @up names n p p' h _ hn ih =>
    obtain ⟨d, hd, hx⟩ := leads_entry hn hp
    obtain rfl := ih (fun more target hne hm => hlinks more target hne
      (hm.trans (List.prefix_append _ _))) hd
    rw [← List.append_assoc]
    refine hx.resolve_right ?_
    rintro ⟨target, ht⟩
    rw [List.append_assoc] at ht
    exact hlinks _ target (by simp) List.prefix_rfl ht

/-! ## What is there is no new directory -/

theorem hop_keep {root : Node} {closed : Bool} {segments : List Segment} {r : Hop}
    (h : hop root .follow closed x segments = .ok r) :
    (∃ s node, hop root .keep closed x segments = .ok (.spot s) ∧ s.node = some node) ∨
      hop root .keep closed x segments = .ok r := by
  simp only [hop_eq_ok] at h ⊢
  induction h with
  | here hr => exact .inr (.here hr)
  | @name x n he ha =>
    obtain ⟨-, hl, ⟨target, -, ht, -⟩ | ⟨-, hr⟩⟩ := arrive_eq_ok.mp ha
    · obtain ⟨node, hnode⟩ := Option.isSome_iff_exists.mp (isSome_of_target? ht)
      exact .inl ⟨_, node, .name he (arrive_eq_ok.mpr ⟨by simp, hl, .inr ⟨.inl rfl, rfl⟩⟩), hnode⟩
    · exact .inr (.name he (arrive_eq_ok.mpr ⟨by simp, hl, .inr ⟨.inl rfl, hr⟩⟩))
  | stay he _ ih => exact ih.imp (fun ⟨s, node, hs, hn⟩ => ⟨s, node, .stay he hs, hn⟩) (.stay he)
  | up he _ ih => exact ih.imp (fun ⟨s, node, hs, hn⟩ => ⟨s, node, .up he hs, hn⟩) (.up he)
  | link hne he hl ht hr => exact .inr (.link hne he hl ht hr)
  | pass hne he hl hsome ht _ ih =>
    exact ih.imp (fun ⟨s, node, hs, hn⟩ => ⟨s, node, .pass hne he hl hsome ht hs, hn⟩)
      (.pass hne he hl hsome ht)

theorem exists_locate_keep {root : Node} {closed : Bool} {segments : List Segment} {hops : Nat}
    {s : Spot} {node : Node} (h : locate root .follow hops (.onward x segments closed) = .ok s)
    (hn : s.node = some node) :
    ∃ s node, locate root .keep hops (.onward x segments closed) = .ok s ∧ s.node = some node := by
  induction h using locate_induction with
  | found _ hhop =>
    obtain ⟨s', node', hkeep, hn'⟩ | hkeep := hop_keep hhop
    · exact ⟨s', node', bind_eq_ok.mpr ⟨_, hkeep, locate_spot _ _ _ _⟩, hn'⟩
    · exact ⟨s, node, bind_eq_ok.mpr ⟨_, hkeep, locate_spot _ _ _ _⟩, hn⟩
  | onward _ _ hhop ih =>
    obtain ⟨s', node', hkeep, hn'⟩ | hkeep := hop_keep hhop
    · exact ⟨s', node', bind_eq_ok.mpr ⟨_, hkeep, locate_spot _ _ _ _⟩, hn'⟩
    · rwa [locate_succ, hkeep]

/-- What a path leads to has an entry, be it that of a link. -/
theorem exists_find_keep (h : v.Leads q c) :
    ∃ s node, v.find .keep q = .ok s ∧ s.node = some node := by
  obtain ⟨node, h⟩ := h
  obtain ⟨s, hs, -, hn, -⟩ := existing_eq_ok.mp h
  obtain ⟨hbytes, hl⟩ := find_eq_ok.mp hs
  obtain ⟨t, node', ht, hn'⟩ := exists_locate_keep hl hn
  exact ⟨t, node', find_eq_ok.mpr ⟨hbytes, ht⟩, hn'⟩

/-- No directory is made where a path leads already. -/
theorem makeDirectory_of_leads (h : v.Leads q c) : v.makeDirectory q = .error .alreadyExists := by
  obtain ⟨t, node', ht, hn'⟩ := exists_find_keep h
  unfold makeDirectory
  rw [ht]
  obtain ⟨d, name, node, closed⟩ := t
  obtain rfl : node = some node' := hn'
  cases name <;> rfl

/-! ## Directories on the way -/

/-- From `v` to `v'` nothing was made, or directories from a place on to which one of the parents of
`p` leads, on the way to `p`. -/
inductive Paved (q : Path) (names : List Name) (p : Path) (v v' : Volume) : Prop where
  | same (h : v' = v)
  | made {before after : List Name} {p₁ : Path} {c : Place} (hnames : names = before ++ after)
      (hne : after ≠ []) (hbefore : Climbs q before p₁) (hafter : Climbs p₁ after p)
      (hlead : v.Leads p₁ c) (hnew : v.face? (c ++ after.take 1) = none)
      (hfaces : ∀ x fc, v'.face? x = some fc →
        v.face? x = some fc ∨ ∃ more, more ≠ [] ∧ more <+: after ∧ x = c ++ more)

theorem face?_of_hnew {after more : List Name} (hnew : v.face? (c ++ after.take 1) = none)
    (hne : more ≠ []) (hm : more <+: after) : v.face? (c ++ more) = none := by
  obtain ⟨m, more, rfl⟩ := List.exists_cons_of_ne_nil hne
  obtain ⟨rest, rfl⟩ := hm
  have h := face?_append_of_none hnew more
  rwa [List.append_assoc] at h

/-- A directory is made as an entry of the one that the parent leads to. -/
theorem makeDirectory_entry (hn : q.Enters n p) (h : v.makeDirectory p = .ok v') :
    ∃ d, v.Leads q d ∧ v.face? (d ++ [n]) = none ∧
      ∀ x fc, v'.face? x = some fc → v.face? x = some fc ∨ x = d ++ [n] := by
  unfold makeDirectory at h
  obtain ⟨s, hs, h⟩ := bind_eq_ok.mp h
  split at h
  · next d m closed =>
    obtain ⟨hd, hm, -⟩ := spot_of_find_entry hn hs
    obtain rfl := Option.some.inj hm
    have hnone : v.face? (d ++ [m]) = none := face?_of_spot hs rfl
    have hputs := addEntry_eq_ok (fun _ _ => rfl) hnone h
    refine ⟨d, hd, hnone, fun x fc hx => ?_⟩
    by_cases he : x = d ++ [m]
    · exact .inr he
    · exact .inl (hputs.face?_of_ne x he ▸ hx)
  · exact absurd h (by simp)

/-- What was made for a parent is on the way to the path itself. -/
theorem Paved.up (hn : p₁.Enters n p) (hparent : p.parent? = some p₁)
    (h : Paved q names p₁ v v') : Paved q (names ++ [n]) p v v' := by
  cases h with
  | same h => exact .same h
  | made hnames hne hbefore hafter hlead hnew hfaces =>
    refine .made (by rw [hnames, List.append_assoc]) (by simp) hbefore (.up hafter hparent hn) hlead
      ?_ fun x fc hx => (hfaces x fc hx).imp_right fun ⟨more, hm, hpre, hx⟩ =>
        ⟨more, hm, hpre.trans (List.prefix_append _ _), hx⟩
    rwa [List.take_append_of_le_length (List.length_pos_iff.mpr hne)]

/-- What was missing can be made after its parent was; it is on the way as well. -/
theorem Paved.make {v₁ v₂ : Volume} {k : IoKind} (hn : p₁.Enters n p)
    (hparent : p.parent? = some p₁) (h : Paved q names p₁ v v₁) (hadds : Adds v v₁)
    (hmissing : v.makeDirectory p = .error k) (hmake : v₁.makeDirectory p = .ok v₂) :
    Paved q (names ++ [n]) p v v₂ := by
  cases h with
  | same h =>
    obtain rfl : v₁ = v := h
    exact absurd (hmake.symm.trans hmissing) (by simp)
  | @made before after p₀ c hnames hne hbefore hafter hlead hnew hfaces =>
    obtain ⟨d, hd, -, hfaces'⟩ := makeDirectory_entry hn hmake
    -- only directories were made, so no link leads away
    have hplace : d = c ++ after := by
      refine place_of_climbs hafter (hadds.leads hlead id) ?_ hd
      intro more target hm hpre hl
      rw [hadds.link] at hl
      exact absurd ((face?_of_hnew hnew hm hpre).symm.trans hl) (by simp)
    subst hplace
    refine .made (by rw [hnames, List.append_assoc]) (by simp) hbefore
      (.up hafter hparent hn) hlead ?_ ?_
    · rwa [List.take_append_of_le_length (List.length_pos_iff.mpr hne)]
    · intro x fc hx
      rcases hfaces' x fc hx with hx | rfl
      · refine (hfaces x fc hx).imp_right ?_
        rintro ⟨more, hm, hpre, hx⟩
        exact ⟨more, hm, hpre.trans (List.prefix_append _ _), hx⟩
      · exact .inr ⟨after ++ [n], by simp, List.prefix_rfl, List.append_assoc ..⟩

theorem paved_makeFirst (fuel : Nat) (h : Climbs q names p) (hq : v.Leads q c) :
    Paved q names p v (v.makeFirst (upwards fuel p)).2 := by
  induction h generalizing fuel with
  | here =>
    cases fuel with
    | zero => exact .same rfl
    | succ fuel =>
      rw [upwards, if_neg hq.bytes_ne_nil]
      split <;> rw [makeFirst, makeDirectory_of_leads hq] <;> exact .same rfl
  | @up names n p p' h hparent hn ih =>
    cases fuel with
    | zero => exact .same rfl
    | succ fuel =>
      rw [upwards]
      split
      · exact .same rfl
      rw [hparent]
      dsimp only
      rw [makeFirst]
      split
      · next v' hmake =>
        obtain ⟨d, hd, hnone, hfaces⟩ := makeDirectory_entry hn hmake
        refine .made rfl (List.cons_ne_nil n []) h (.up .here hparent hn) hd hnone ?_
        intro x fc hx
        exact (hfaces x fc hx).imp_right fun he => ⟨[n], by simp, List.prefix_rfl, he⟩
      · next hmissing =>
        have hadds := adds_makeFirst v (upwards fuel p')
        have hpaved := ih fuel
        rcases hfirst : v.makeFirst (upwards fuel p') with ⟨k | u, v₁⟩ <;>
          rw [hfirst] at hadds hpaved
        · exact hpaved.up hn hparent
        dsimp only
        split
        · next v₂ hmake => exact hpaved.make hn hparent hadds hmissing hmake
        · exact hpaved.up hn hparent
      · exact .same rfl

/-- All that is made is on the way. -/
theorem paved_makeDirectories (h : Climbs q names p) (hq : v.Leads q c) :
    Paved q names p v (v.makeDirectories p).2 :=
  paved_makeFirst _ h hq

/-! ## What is made below a parent -/

/-- Below the place of a parent without links, what is made is on the way from there. -/
theorem Paved.below {more : List Name} (h : Paved q (names ++ more) p v v') (hadds : Adds v v')
    (hup : Climbs q names p₁) (hdown : Climbs p₁ more p) (hp₁ : v'.Leads p₁ c)
    (hlinks : ∀ before target, before ≠ [] → before <+: more → v.Leads p₁ c →
      v.face? (c ++ before) ≠ some (.link target)) {fc : Face}
    (hx : v'.face? (c ++ x) = some fc) :
    (v.Leads p₁ c ∧ v.face? (c ++ x) = some fc) ∨
      v.face? (c ++ x) = none ∧ x <+: more ∧ ∃ mode, fc = .directory mode := by
  cases h with
  | same h =>
    subst h
    exact .inl ⟨hp₁, hx⟩
  | @made before after p₂ c₂ hnames hne hbefore hafter hlead hnew hfaces =>
    have hway : (∃ b, more = b ++ after ∧ v.Leads p₁ c ∧ c₂ = c ++ b) ∨
        ∃ b, after = b ++ more ∧ c = c₂ ++ b ∧ (b = [] → v.Leads p₁ c) := by
      obtain ⟨b, rfl, rfl⟩ | ⟨b, rfl, rfl⟩ := List.append_eq_append_iff.mp hnames
      · obtain ⟨c', hc'⟩ := exists_leads_of_climbs (hafter.between hdown) hlead
        obtain rfl := (hadds.leads hc' id).inj hp₁
        exact .inl ⟨b, rfl, hc', place_of_climbs (hafter.between hdown) hc' (fun _ target hm hpre =>
          hlinks _ target hm (hpre.trans (List.prefix_append _ _)) hc') hlead⟩
      · have hplace := place_of_climbs (hdown.between hafter) (hadds.leads hlead id)
          (fun _ target hm hpre hl => ?_) hp₁
        · refine .inr ⟨b, rfl, hplace, ?_⟩
          rintro rfl
          rwa [(hdown.between hafter).eq_of_nil rfl, hplace, List.append_nil]
        · rw [hadds.link] at hl
          exact absurd ((face?_of_hnew hnew hm (hpre.trans (List.prefix_append _ _))).symm.trans hl)
            (by simp)
    rcases hadds.new _ id _ hx with hold | ⟨hnone, hdir⟩
    · refine .inl ⟨?_, hold⟩
      obtain ⟨b, -, hc, -⟩ | ⟨b, rfl, rfl, hc⟩ := hway
      · exact hc
      · -- nothing was where the parent leads if it was made
        refine hc (Classical.byContradiction fun hb => ?_)
        have hnone := face?_append_of_none (face?_of_hnew hnew hb (List.prefix_append _ _)) x
        exact absurd (hnone.symm.trans hold) (by simp)
    · refine .inr ⟨hnone, ?_, hdir⟩
      obtain ⟨made, -, hpre, hplace⟩ := (hfaces _ _ hx).resolve_left fun hold =>
        absurd (hnone.symm.trans hold) (by simp)
      obtain ⟨b, rfl, -, rfl⟩ | ⟨b, rfl, rfl, -⟩ := hway
      · rw [List.append_assoc] at hplace
        rw [List.append_cancel_left hplace]
        exact List.prefix_append_right_inj b |>.mpr hpre
      · rw [List.append_assoc] at hplace
        rw [← List.append_cancel_left hplace] at hpre
        exact (List.prefix_append_right_inj b).mp hpre

end Depot.Volume
