import Depot.Proofs.Volume.Route

/-!
# The paths above a path

`Path.Climbs q names p` says that the parents of `p`, one after the other, are paths of the names
less by one each time, up to `q`. So climb the parents of a path that is joined from two parts, if
the second one says names only (`Path.climbs_join`). They end at the first part without what stays
at its end, which leads to the same directory (`Volume.leads_trimmed`).
-/

namespace Depot

open Text

namespace Path

/-! ## Paths without what stays at their end -/

/-- The path without the pieces at its end that stay. -/
def trimmed (p : Path) : Path :=
  match p.pieces with
  | [] => p
  | first :: rest => ofPieces p.isAbsolute first (trimEnd rest)

theorem trimmed_eq {p : Path} {first : Bytes} {rest : List Bytes} (h : p.pieces = first :: rest) :
    p.trimmed = ofPieces p.isAbsolute first (trimEnd rest) := by
  rw [trimmed, h]

theorem trims_bytes (n : Name) : trims n.bytes = false := by
  simp [trims, n.ordinary.1, n.ordinary.2.1]

theorem trimEnd_concat_name (ps : List Bytes) (n : Name) :
    trimEnd (ps ++ [n.bytes]) = ps ++ [n.bytes] := by
  rw [trimEnd_eq, List.rdropWhile_concat_neg]
  simp [trims_bytes]

theorem trimEnd_concat {b : Bytes} (h : trims b = true) (ps : List Bytes) :
    trimEnd (ps ++ [b]) = trimEnd ps := by
  rw [trimEnd_eq, List.rdropWhile_concat_pos trims ps b h, trimEnd_eq]

theorem joinWith_append_cons {first : Bytes} {ps qs : List Bytes} (hq : qs ≠ []) :
    joinWith slash (first :: (ps ++ qs))
      = joinWith slash (first :: ps) ++ slash :: joinWith slash qs := by
  induction ps generalizing first with
  | nil =>
    obtain ⟨q, qs, rfl⟩ := List.exists_cons_of_ne_nil hq
    rfl
  | cons p ps ih =>
    rw [List.cons_append, joinWith, ih, joinWith, List.append_assoc, List.cons_append]

section Pieces

variable {a : Bool} {first : Bytes} {rest : List Bytes}

theorem pieces_ofPieces (hne : rest ≠ []) (hslash : ∀ b ∈ first :: rest, slash ∉ b) :
    (ofPieces a first rest).pieces = first :: rest := by
  rw [ofPieces, if_neg fun h => hne h.2]
  exact pieces_joinWith (List.cons_ne_nil _ _) hslash

theorem isAbsolute_ofPieces (ha : a = true ↔ first = []) (hslash : ∀ b ∈ first :: rest, slash ∉ b) :
    (ofPieces a first rest).isAbsolute = a := by
  unfold ofPieces
  split
  · next h => exact h.1.symm
  · next h =>
    have hp := pieces_joinWith (List.cons_ne_nil first rest) hslash
    rw [Bool.eq_iff_iff, isAbsolute_iff_pieces hp, ha]
    exact and_iff_left_of_imp fun hf hr => h ⟨ha.mpr hf, hr⟩

theorem route_ofPieces (hslash : ∀ b ∈ first :: rest, slash ∉ b) (ha : a = true ↔ first = []) :
    (ofPieces a first rest).route = (first :: rest).filterMap ask? := by
  unfold ofPieces
  split
  · next h =>
    rw [ha.mp h.1, h.2]
    rfl
  · rw [route_eq, pieces_joinWith (List.cons_ne_nil _ _) hslash]

theorem bytes_ofPieces_ne_nil (ha : a = true ↔ first = []) :
    (ofPieces a first rest).bytes ≠ [] := by
  unfold ofPieces
  split
  · simp
  · next h =>
    cases rest with
    | nil => exact fun hf => h ⟨ha.mpr hf, rfl⟩
    | cons b rest => simp [joinWith]

/-- What is taken away at the end of pieces stays. -/
theorem exists_filterMap_trimEnd (ps : List Bytes) :
    ∃ k, ps.filterMap ask? = (trimEnd ps).filterMap ask? ++ List.replicate k .stay := by
  induction ps using List.reverseRecOn with
  | nil => exact ⟨0, rfl⟩
  | append_singleton ps b ih =>
    by_cases hb : trims b = true
    · obtain ⟨k, hk⟩ := ih
      rw [trimEnd_concat hb, List.filterMap_append, hk]
      rcases (by simpa [trims] using hb : b = [] ∨ b = [dot]) with rfl | rfl
      · exact ⟨k, by simp [ask?]⟩
      · refine ⟨k + 1, ?_⟩
        rw [List.append_assoc, List.replicate_succ']
        rfl
    · refine ⟨0, ?_⟩
      rw [trimEnd_eq, List.rdropWhile_concat_neg _ _ _ hb]
      simp

theorem bytes_ofPieces_prefix {more : List Bytes} (hm : more ≠ []) (ha : a = true ↔ first = []) :
    (ofPieces a first rest).bytes <+: (ofPieces a first (rest ++ more)).bytes := by
  have hlong : (ofPieces a first (rest ++ more)).bytes
      = joinWith slash (first :: rest) ++ slash :: joinWith slash more := by
    rw [ofPieces, if_neg (by simp [hm])]
    exact joinWith_append_cons hm
  rw [hlong]
  unfold ofPieces
  split
  · next h =>
    rw [ha.mp h.1, h.2]
    exact ⟨_, rfl⟩
  · exact List.prefix_append _ _

end Pieces

/-! ## Parents one after the other -/

/-- From `q` on, the parents of a path are those of its names less by one each time. -/
inductive Climbs (q : Path) : List Name → Path → Prop where
  | here : Climbs q [] q
  | up {names : List Name} {n : Name} {p p' : Path} (h : Climbs q names p')
      (hparent : p.parent? = some p') (hn : p'.Enters n p) : Climbs q (names ++ [n]) p

variable {p q r : Path} {names more : List Name} {n : Name}

theorem Climbs.eq_of_nil (h : Climbs q names p) (hn : names = []) : p = q := by
  cases h with
  | here => rfl
  | up => exact absurd hn (by simp)

theorem Climbs.parent (h : Climbs q (names ++ [n]) p) :
    ∃ p', p.parent? = some p' ∧ p'.Enters n p ∧ Climbs q names p' := by
  generalize hns : names ++ [n] = ns at h
  cases h with
  | here => exact absurd hns (by simp)
  | up h hparent hn =>
    obtain ⟨rfl, hm⟩ := List.append_inj' hns rfl
    obtain rfl := (List.cons.inj hm).1
    exact ⟨_, hparent, hn, h⟩

theorem Climbs.trans (h : Climbs q names p) (h' : Climbs p more r) :
    Climbs q (names ++ more) r := by
  induction h' with
  | here => rwa [List.append_nil]
  | up _ hparent hn ih =>
    rw [← List.append_assoc]
    exact .up ih hparent hn

/-- The way up is the same from wherever it is entered. -/
theorem Climbs.between (h : Climbs p more r) (h' : Climbs q (names ++ more) r) :
    Climbs q names p := by
  induction h with
  | here => rwa [List.append_nil] at h'
  | up _ hparent _ ih =>
    rw [← List.append_assoc] at h'
    obtain ⟨p', hp', -, h'⟩ := h'.parent
    obtain rfl := Option.some.inj (hparent.symm.trans hp')
    exact ih h'

section Pieces

variable {a : Bool} {first : Bytes} {rest : List Bytes}

theorem parent?_ofPieces (ha : a = true ↔ first = [])
    (hslash : ∀ b ∈ first :: (rest ++ [n.bytes]), slash ∉ b) :
    (ofPieces a first (rest ++ [n.bytes])).parent? = some (ofPieces a first (trimEnd rest)) := by
  rw [parent?, pieces_ofPieces (by simp) hslash, isAbsolute_ofPieces ha hslash]
  simp [trimEnd_concat_name]

theorem enters_ofPieces (ha : a = true ↔ first = [])
    (hslash : ∀ b ∈ first :: (rest ++ [n.bytes]), slash ∉ b) :
    (ofPieces a first (trimEnd rest)).Enters n (ofPieces a first (rest ++ [n.bytes])) := by
  have hshort : ∀ b ∈ first :: trimEnd rest, slash ∉ b := fun b hb =>
    hslash b ((List.mem_cons.mp hb).elim (fun h => h ▸ List.mem_cons_self) fun h =>
      List.mem_cons_of_mem _ (List.mem_append_left _ (mem_of_mem_trimEnd h)))
  obtain ⟨cut, hcut⟩ := List.rdropWhile_prefix trims rest
  have hsplit : rest ++ [n.bytes] = trimEnd rest ++ (cut ++ [n.bytes]) := by
    rw [trimEnd_eq, ← List.append_assoc, hcut]
  refine ⟨bytes_ofPieces_ne_nil ha, ?_, ?_, ?_⟩
  · rw [hsplit]
    exact bytes_ofPieces_prefix (by simp) ha
  · rw [isAbsolute_ofPieces ha hslash, isAbsolute_ofPieces ha hshort]
  · obtain ⟨k, hk⟩ := exists_filterMap_trimEnd rest
    refine ⟨k, ?_⟩
    have hn : [n.bytes].filterMap ask? = [.name n] := by simp [ask?, n.ordinary.1]
    rw [route_ofPieces hslash ha, route_ofPieces hshort ha, ← List.cons_append,
      List.filterMap_append, hn, ← List.append_assoc]
    congr 1
    rw [List.filterMap_cons, List.filterMap_cons, hk]
    cases ask? first <;> rfl

/-- The parents of pieces that say names. -/
theorem climbs_ofPieces (ha : a = true ↔ first = []) {more : List Bytes}
    (hmore : more.filterMap step? = names.map .name)
    (hslash : ∀ b ∈ first :: (rest ++ more), slash ∉ b) :
    Climbs (ofPieces a first (trimEnd rest)) names (ofPieces a first (trimEnd (rest ++ more))) := by
  induction more using List.reverseRecOn generalizing names with
  | nil =>
    obtain rfl := List.map_eq_nil_iff.mp hmore.symm
    rw [List.append_nil]
    exact .here
  | append_singleton more b ih =>
    rw [← List.append_assoc] at hslash ⊢
    rw [List.filterMap_append] at hmore
    have hrest : ∀ c ∈ first :: (rest ++ more), slash ∉ c := fun c hc =>
      hslash c (List.mem_append_left [b] hc)
    by_cases hb : trims b = true
    · rw [trimEnd_concat hb]
      refine ih ?_ hrest
      simpa [step?_of_trims hb] using hmore
    · have hsb : slash ∉ b := hslash b (by simp)
      obtain ⟨c, hc⟩ : ∃ c, step? b = some c := by
        rw [← Option.ne_none_iff_exists', Ne, step?_eq_none hsb]
        simpa [trims] using hb
      rw [List.filterMap_cons_some hc, List.filterMap_nil] at hmore
      obtain ⟨init, lasts, rfl, hinit, hlasts⟩ := List.map_eq_append_iff.mp hmore.symm
      obtain ⟨n, rfl, hn⟩ := List.map_eq_singleton_iff.mp hlasts
      obtain rfl := step?_eq_name (hc.trans (congrArg some hn.symm))
      rw [trimEnd_concat_name]
      exact .up (ih hinit.symm hrest) (parent?_ofPieces ha hslash) (enters_ofPieces ha hslash)

end Pieces

/-- The pieces of a join are those of both parts, but for an empty one at the end of the first. -/
theorem exists_pieces_join (p : Path) (hp : p.bytes ≠ []) (hq : q.isAbsolute = false) :
    ∃ first rest rest', p.pieces = first :: rest ∧ trimEnd rest = trimEnd rest' ∧
      (p.join q).pieces = first :: (rest' ++ q.pieces) := by
  obtain ⟨first, rest, hpieces⟩ := List.exists_cons_of_ne_nil p.pieces_ne_nil
  unfold join
  rw [if_neg (by simp [hq])]
  split
  · next h =>
    obtain ⟨ps, hps⟩ := List.getLast?_eq_some_iff.mp (h.resolve_left hp)
    obtain ⟨first, rest', hsplit⟩ := List.exists_cons_of_ne_nil (splitOn_ne_nil slash ps)
    refine ⟨first, rest' ++ [[]], rest', ?_, trimEnd_concat rfl rest', ?_⟩
    · simp [pieces, hps, splitOn_append_sep, splitOn, hsplit]
    · simp [pieces, hps, splitOn_append_sep, hsplit]
  · refine ⟨first, rest, rest, hpieces, rfl, ?_⟩
    rw [pieces] at hpieces
    simp [pieces, splitOn_append_sep, hpieces]

theorem isAbsolute_iff_first {first : Bytes} {rest : List Bytes} (hp : p.bytes ≠ [])
    (h : p.pieces = first :: rest) : p.isAbsolute = true ↔ first = [] := by
  rw [isAbsolute_iff_pieces h, and_iff_left_iff_imp]
  rintro rfl rfl
  exact hp (by rw [bytes_eq_joinWith, h]; rfl)

theorem eq_ofPieces {first : Bytes} {rest : List Bytes} (h : p.pieces = first :: rest) :
    p = ofPieces p.isAbsolute first rest := by
  rw [ofPieces, if_neg fun ha => ((isAbsolute_iff_pieces h).mp ha.1).2 ha.2, Path.mk.injEq,
    bytes_eq_joinWith p, h]

/-- A path is its trimmed path, with what stays behind it. -/
theorem bytes_trimmed_prefix (hp : p.bytes ≠ []) : p.trimmed.bytes <+: p.bytes := by
  obtain ⟨first, rest, h⟩ := List.exists_cons_of_ne_nil p.pieces_ne_nil
  obtain ⟨cut, hcut⟩ := List.rdropWhile_prefix trims rest
  rw [← trimEnd_eq] at hcut
  rw [trimmed_eq h, eq_ofPieces h, isAbsolute_ofPieces (isAbsolute_iff_first hp h) fun b hb =>
    slash_not_mem_of_mem_pieces (h ▸ hb)]
  cases cut with
  | nil =>
    rw [List.append_nil] at hcut
    rw [hcut]
  | cons b cut =>
    conv_rhs => rw [← hcut]
    exact bytes_ofPieces_prefix (List.cons_ne_nil b cut) (isAbsolute_iff_first hp h)

theorem trimmed_isAbsolute (hp : p.bytes ≠ []) : p.trimmed.isAbsolute = p.isAbsolute := by
  obtain ⟨first, rest, h⟩ := List.exists_cons_of_ne_nil p.pieces_ne_nil
  rw [trimmed_eq h]
  refine isAbsolute_ofPieces (isAbsolute_iff_first hp h) fun b hb => ?_
  refine slash_not_mem_of_mem_pieces (p := p) (h ▸ ?_)
  exact (List.mem_cons.mp hb).elim (fun he => he ▸ List.mem_cons_self) fun hb =>
    List.mem_cons_of_mem _ (mem_of_mem_trimEnd hb)

theorem exists_route_trimmed (hp : p.bytes ≠ []) :
    ∃ k, p.route = p.trimmed.route ++ List.replicate k .stay := by
  obtain ⟨first, rest, h⟩ := List.exists_cons_of_ne_nil p.pieces_ne_nil
  obtain ⟨k, hk⟩ := exists_filterMap_trimEnd rest
  refine ⟨k, ?_⟩
  have hslash : ∀ b ∈ first :: trimEnd rest, slash ∉ b := fun b hb =>
    slash_not_mem_of_mem_pieces (p := p) (h ▸ (List.mem_cons.mp hb).elim
      (fun he => he ▸ List.mem_cons_self) fun hb => List.mem_cons_of_mem _ (mem_of_mem_trimEnd hb))
  rw [trimmed_eq h, route_ofPieces hslash (isAbsolute_iff_first hp h), route_eq, h,
    List.filterMap_cons, List.filterMap_cons, hk]
  cases ask? first <;> rfl

theorem bytes_trimmed_ne_nil (hp : p.bytes ≠ []) : p.trimmed.bytes ≠ [] := by
  obtain ⟨first, rest, h⟩ := List.exists_cons_of_ne_nil p.pieces_ne_nil
  rw [trimmed_eq h]
  exact bytes_ofPieces_ne_nil (isAbsolute_iff_first hp h)

/-- The parents of a path with a path behind it that says names. -/
theorem climbs_join (hp : p.bytes ≠ []) (hq : q.isAbsolute = false)
    (hsteps : q.steps = names.map .name) : Climbs p.trimmed names (p.join q).trimmed := by
  obtain ⟨first, rest, rest', hpieces, htrim, hjoin⟩ := exists_pieces_join p hp hq
  rw [steps_of_relative hq] at hsteps
  rw [trimmed_eq hpieces, trimmed_eq hjoin, isAbsolute_join hq, htrim]
  exact climbs_ofPieces (isAbsolute_iff_first hp hpieces) hsteps fun b hb =>
    slash_not_mem_of_mem_pieces (hjoin ▸ hb)

/-- Nothing stays at the end of a path that ends with a name. -/
theorem trimmed_of_pieces {ps : List Bytes} (h : p.pieces = ps ++ [n.bytes]) : p.trimmed = p := by
  cases ps with
  | nil =>
    have ha : p.isAbsolute = false := by
      rw [Bool.eq_false_iff, Ne, isAbsolute_iff_pieces h]
      simp
    rw [trimmed_eq h, ha, Path.mk.injEq, bytes_eq_joinWith p, h]
    rfl
  | cons first rest =>
    rw [List.cons_append] at h
    rw [trimmed_eq h, trimEnd_concat_name, ofPieces, if_neg (by simp), Path.mk.injEq,
      bytes_eq_joinWith p, h]

theorem trimmed_join (hp : p.bytes ≠ []) (hq : q.isAbsolute = false) {ps : List Bytes}
    (h : q.pieces = ps ++ [n.bytes]) : (p.join q).trimmed = p.join q := by
  obtain ⟨first, rest, rest', -, -, hjoin⟩ := exists_pieces_join p hp hq
  have hpieces : (p.join q).pieces = first :: (rest' ++ ps) ++ [n.bytes] := by
    rw [hjoin, h, List.cons_append, List.append_assoc]
  exact trimmed_of_pieces hpieces

end Path

namespace Volume

/-! ## Where trimmed paths lead -/

variable {v : Volume} {root : Node} {p : Place} {segments : List Segment} {path : Path}

/-- The same spot, whether the path has a slash at its end or not. -/
def Spot.ajar (s : Spot) : Spot :=
  { s with closed := false }

/-- The same hop, whether the path has a slash at its end or not. -/
def Hop.ajar : Hop → Hop
  | .spot s => .spot s.ajar
  | .onward p segments _ => .onward p segments false

/-- A slash at the end of a path does not change where it leads. -/
theorem hop_ajar (closed : Bool) : (hop root .follow closed p segments).map Hop.ajar
    = (hop root .follow false p segments).map Hop.ajar := by
  induction segments generalizing p with
  | nil => rfl
  | cons s rest ih =>
    rcases last_cases s rest with ⟨n, rfl, rfl⟩ | hs
    · rw [hop_name, hop_name]
      cases entered (root.face? p) with
      | error k => rfl
      | ok u =>
        simp only [bind, Except.bind, arrive, reduceCtorEq, false_and, if_false]
        split
        · rfl
        · split <;> rfl
    · rw [hop_cons hs, hop_cons hs]
      cases entered (root.face? p) with
      | error k => rfl
      | ok u =>
        change (pass _ _ _ _ _ _).map _ = (pass _ _ _ _ _ _).map _
        cases s with
        | stay => exact ih
        | up => exact ih
        | name n =>
          rw [pass, pass, passName, passName]
          split
          · rfl
          split
          · rfl
          split
          · rfl
          · exact ih

theorem locate_ajar {hops : Nat} (closed : Bool) :
    (locate root .follow hops (.onward p segments closed)).map Spot.ajar
      = (locate root .follow hops (.onward p segments false)).map Spot.ajar := by
  induction hops generalizing p segments closed with
  | zero => rfl
  | succ hops ih =>
    rw [locate_succ, locate_succ]
    have hhop := @hop_ajar root p segments closed
    rcases hc : hop root .follow closed p segments with k | r <;>
      rcases hf : hop root .follow false p segments with k' | r' <;> rw [hc, hf] at hhop
    · exact congrArg Except.error (Except.error.inj hhop)
    · exact absurd hhop (by simp [Except.map])
    · exact absurd hhop (by simp [Except.map])
    · replace hhop := Except.ok.inj hhop
      change (locate _ _ _ r).map _ = (locate _ _ _ r').map _
      cases r with
      | spot s =>
        cases r' with
        | spot s' =>
          rw [locate_spot, locate_spot]
          exact congrArg Except.ok (Hop.spot.inj hhop)
        | onward => exact absurd hhop (by simp [Hop.ajar])
      | onward p₁ segments₁ c₁ =>
        cases r' with
        | spot => exact absurd hhop (by simp [Hop.ajar])
        | onward p₂ segments₂ c₂ =>
          obtain ⟨rfl, rfl, -⟩ := Hop.onward.inj hhop
          exact (ih c₁).trans (ih c₂).symm

theorem exists_locate_of_closed {closed : Bool} (closed' : Bool) {hops : Nat} {s : Spot}
    (h : locate root .follow hops (.onward p segments closed) = .ok s) :
    ∃ s', locate root .follow hops (.onward p segments closed') = .ok s' ∧ s'.place = s.place ∧
      s'.node = s.node := by
  have hajar := (@locate_ajar root p segments hops closed).trans (locate_ajar closed').symm
  rw [h] at hajar
  cases h' : locate root .follow hops (.onward p segments closed') with
  | error k =>
    rw [h'] at hajar
    exact absurd hajar (by simp [Except.map])
  | ok s' =>
    rw [h'] at hajar
    have hsame : s'.ajar = s.ajar := (Except.ok.inj hajar).symm
    have hplace : s'.ajar.place = s.ajar.place := congrArg Spot.place hsame
    have hnode : s'.ajar.node = s.ajar.node := congrArg Spot.node hsame
    exact ⟨s', rfl, hplace, hnode⟩

theorem place_of_locate_stays {closed : Bool} {hops k : Nat} {s : Spot}
    (h : locate root .follow hops (.onward p (List.replicate k .stay) closed) = .ok s) :
    s.place = p := by
  have hless : Linkless root p (List.replicate k .stay) := by
    rintro before n ⟨rest, hb⟩
    have hn : Segment.name n ∈ List.replicate k .stay := hb ▸ by simp
    exact absurd (List.eq_of_mem_replicate hn) (by simp)
  rw [(hless.locate h).1]
  clear h hless
  induction k with
  | zero => rfl
  | succ k ih => exact ih

/-- A path leads to a directory just as well without what stays at its end. -/
theorem leads_trimmed {mode : Mode} (h : v.Leads path p)
    (hd : v.face? p = some (.directory mode)) : v.Leads path.trimmed p := by
  have hne := h.bytes_ne_nil
  obtain ⟨node, hn⟩ := h
  obtain ⟨s, hs, rfl, hnode, -⟩ := existing_eq_ok.mp hn
  have hpre := Path.bytes_trimmed_prefix hne
  obtain ⟨k, hk⟩ := Path.exists_route_trimmed hne
  cases k with
  | zero =>
    obtain ⟨⟨h0, hlen, -⟩, hl⟩ := find_eq_ok.mp hs
    rw [List.replicate_zero, List.append_nil] at hk
    rw [hk, ← Path.trimmed_isAbsolute hne] at hl
    obtain ⟨s', hl', hplace, hnode'⟩ := exists_locate_of_closed path.trimmed.isClosed hl
    have hfind : v.find .follow path.trimmed = .ok s' :=
      find_eq_ok.mpr ⟨⟨fun hm => h0 (hpre.subset hm), hpre.length_le.trans hlen,
        Path.bytes_trimmed_ne_nil hne⟩, hl'⟩
    refine ⟨node, existing_eq_ok.mpr ⟨s', hfind, hplace, hnode'.trans hnode, fun _ => ?_⟩⟩
    have hface := face?_eq_some.mpr ⟨node, node?_of_existing hn, rfl⟩
    exact isDirectory_iff.mpr ⟨mode, Option.some.inj (hface.symm.trans hd)⟩
  | succ k =>
    obtain ⟨d, hops, hlead, hl⟩ := exists_locate_of_find (Path.bytes_trimmed_ne_nil hne) hpre
      (Path.trimmed_isAbsolute hne).symm hk (by simp) hs
    rwa [place_of_locate_stays hl]

/-- A slash leads to the root, if there is a directory in it. -/
theorem leads_root {c : Place} {mode : Mode} (h : v.face? c = some (.directory mode)) :
    v.Leads ⟨[slash]⟩ [] := by
  obtain ⟨mode, hmode⟩ : ∃ mode, v.face? [] = some (.directory mode) := by
    cases c with
    | nil => exact ⟨mode, h⟩
    | cons n c => exact exists_directory_of_face? (d := []) h
  obtain ⟨node, hnode, hface⟩ := face?_eq_some.mp hmode
  have hfind : v.find .follow ⟨[slash]⟩ = .ok ⟨[], none, some node, true⟩ := by
    refine find_eq_ok.mpr ⟨by decide, ?_⟩
    rw [← show v.root.get? [] = some node from hnode]
    rfl
  exact ⟨node, existing_eq_ok.mpr ⟨_, hfind, rfl, rfl, fun _ => isDirectory_iff.mpr ⟨mode, hface⟩⟩⟩

end Volume

end Depot
