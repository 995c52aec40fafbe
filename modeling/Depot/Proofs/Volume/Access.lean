import Depot.Proofs.Volume.Lookup
import Depot.Volume.Access

/-!
# What system calls change

Each call that succeeds changes one place at most, and what it leaves there is said here:

* `createWith_eq_ok`: a file is made, or the one that is there is emptied,
* `puts_writeAt`: an emptied file gets what arrives of a content, which is all of it if the call
  succeeds (`arriving_of_writeAt`); `copyAt_snd` and `copyAt_eq_ok` say the same of a copy,
* `remove_eq_ok`: an entry that is no directory goes,
* `rename_eq_ok`: an entry goes and comes elsewhere (`shifts_rename`).

`makeDirectories` makes directories where nothing was, and nothing else, whether it succeeds or not
(`adds_makeDirectories`).

What a call does not do is said by `Spares K`: apart from the places in `K` everything stays, but
for directories that are new, and every path leads where it led. Calls that write to what a path
leads to spare all other places (`spares_createWith`, `spares_writeAt`, `spares_setModeAt`,
`spares_copyFile`), and a file that is spared is read as before (`Spares.readFile_eq_ok`).
-/

namespace Depot

namespace Mode

theorem reads_afterWrite (m : Mode) : m.afterWrite.reads = m.reads := by
  unfold afterWrite reads
  split <;> rw [BitVec.getLsbD_and] <;> simp

theorem reads_fileMode : (masked Volume.fileMode).reads = true := by
  decide

end Mode

namespace Volume

variable {v v' v'' : Volume} {path : Path} {p q d : Place} {n : Name}

/-! ## Where nothing changes -/

variable {K K' : Place → Prop}

/-- Apart from the places in `K`, what is there stays as it is, and what is new is a directory; what
changes in `K` are no directories and no links. -/
structure Spares (K : Place → Prop) (v v' : Volume) : Prop extends Steady v v' where
  kept : ∀ q, ¬ K q → ∀ fc, v.face? q = some fc → v'.face? q = some fc
  new : ∀ q, ¬ K q → ∀ fc, v'.face? q = some fc →
    v.face? q = some fc ∨ v.face? q = none ∧ ∃ mode, fc = .directory mode

theorem Spares.refl (K : Place → Prop) (v : Volume) : Spares K v v :=
  ⟨.refl v, fun _ _ _ h => h, fun _ _ _ h => .inl h⟩

theorem Spares.trans (h : Spares K v v') (h' : Spares K v' v'') : Spares K v v'' := by
  refine ⟨h.toSteady.trans h'.toSteady,
    fun q hq fc hfc => h'.kept q hq fc (h.kept q hq fc hfc), fun q hq fc hfc => ?_⟩
  rcases h'.new q hq fc hfc with hfc' | ⟨hn, hd⟩
  · exact h.new q hq fc hfc'
  · refine .inr ⟨?_, hd⟩
    cases hv : v.face? q with
    | none => rfl
    | some fc' => exact absurd ((h.kept q hq fc' hv).symm.trans hn) (by simp)

theorem Spares.mono (h : Spares K v v') (hK : ∀ p, K p → K' p) : Spares K' v v' :=
  ⟨h.toSteady, fun q hq => h.kept q fun hk => hq (hK q hk),
    fun q hq => h.new q fun hk => hq (hK q hk)⟩

/-- A file that is not at a place of `K` is there just if it was. -/
theorem Spares.face?_file (h : Spares K v v') (hq : ¬ K q) {mode : Mode} {c : Content} :
    v'.face? q = some (.file mode c) ↔ v.face? q = some (.file mode c) :=
  ⟨fun hf => (h.new q hq _ hf).resolve_right fun ⟨_, _, hd⟩ => absurd hd (by simp),
    h.kept q hq _⟩

theorem Puts.spares {fc : Option Face} (h : Puts v p fc v') (hp : K p)
    (hold : ∀ old, v.face? p = some old → old.EndsHere)
    (hnew : ∀ new, fc = some new → new.EndsHere) : Spares K v v' := by
  have hne : ∀ q, ¬ K q → v'.face? q = v.face? q := by
    intro q hq
    exact h.face?_of_ne q fun he => hq (he ▸ hp)
  exact ⟨h.steady hold hnew, fun q hq fc hfc => hne q hq ▸ hfc,
    fun q hq fc hfc => .inl (hne q hq ▸ hfc)⟩

/-! ## Directories that are added -/

/-- What is there stays as it is, and what is new is a directory. -/
abbrev Adds (v v' : Volume) : Prop :=
  Spares (fun _ => False) v v'

theorem canChange_eq_true (h : v.canChange p = true) :
    ∃ mode, v.face? p = some (.directory mode) := by
  unfold canChange at h
  split at h
  · next mode entries hn => exact ⟨mode, face?_eq_some.mpr ⟨_, hn, rfl⟩⟩
  · exact absurd h (by simp)

theorem Steady.canChange (h : Steady v v') {d : Place} (hc : v.canChange d = true) :
    v'.canChange d = true := by
  unfold Volume.canChange at hc ⊢
  split at hc
  · next mode entries hnode =>
    obtain ⟨node', hnode', hface⟩ :=
      face?_eq_some.mp (h.directory d mode (face?_eq_some.mpr ⟨_, hnode, rfl⟩))
    cases node' with
    | directory mode' entries' =>
      obtain rfl := Face.directory.inj hface
      rw [hnode']
      exact hc
    | _ => exact nomatch hface
  · exact absurd hc (by simp)

/-- An entry without entries below it that is added where nothing was. -/
theorem addEntry_eq_ok {x : Node} (hx : ∀ m q, x.get? (m :: q) = none)
    (hn : v.face? (p ++ [n]) = none) (h : v.addEntry p n x = .ok v') :
    Puts v (p ++ [n]) (some x.face) v' := by
  unfold addEntry at h
  split at h
  · next hc =>
    obtain ⟨mode, hd⟩ := canChange_eq_true hc
    exact Except.ok.inj h ▸ puts_put hd hn hx
  · exact absurd h (by simp)

theorem face?_of_spot {last : Last} {s : Spot} (hs : v.find last path = .ok s)
    (hn : s.node = none) : v.face? s.place = none :=
  Node.face?_eq_none.mpr ((sound_of_find hs).node.symm.trans hn)

theorem adds_makeDirectory (h : v.makeDirectory path = .ok v') : Adds v v' := by
  unfold makeDirectory at h
  obtain ⟨s, hs, h⟩ := bind_eq_ok.mp h
  split at h
  · next d n closed =>
    have hnone : v.face? (d ++ [n]) = none := face?_of_spot hs rfl
    have hputs := addEntry_eq_ok (fun _ _ => rfl) hnone h
    have hkept : ∀ q fc, v.face? q = some fc → v'.face? q = some fc := by
      intro q fc hq
      rw [hputs.face?_of_ne q fun he => by rw [he, hnone] at hq; exact absurd hq (by simp)]
      exact hq
    have hnew : ∀ q fc, v'.face? q = some fc →
        v.face? q = some fc ∨ v.face? q = none ∧ ∃ mode, fc = .directory mode := by
      intro q fc hq
      by_cases he : q = d ++ [n]
      · subst he
        rw [hputs.face?_self] at hq
        exact .inr ⟨hnone, _, (Option.some.inj hq).symm⟩
      · exact .inl (hputs.face?_of_ne q he ▸ hq)
    refine ⟨⟨hputs.here, fun q mode => hkept q _, fun q target => ⟨fun hq => ?_, hkept q _⟩⟩,
      fun q _ => hkept q, fun q _ => hnew q⟩
    exact (hnew q _ hq).resolve_right fun ⟨_, _, hd⟩ => absurd hd (by simp)
  · exact absurd h (by simp)

theorem adds_makeFirst (v : Volume) (ps : List Path) : Adds v (v.makeFirst ps).2 := by
  induction ps generalizing v with
  | nil => exact .refl _ v
  | cons p above ih =>
    unfold makeFirst
    split
    · next v' h => exact adds_makeDirectory h
    · have ha := ih v
      split
      · next k v' h => rw [h] at ha; exact ha
      · next v' h =>
        rw [h] at ha
        split
        · next v'' h' => exact ha.trans (adds_makeDirectory h')
        · exact ha
    · exact .refl _ v

/-- Making a directory with those above it adds directories and changes nothing else. -/
theorem adds_makeDirectories (v : Volume) (p : Path) : Adds v (v.makeDirectories p).2 :=
  adds_makeFirst v _

/-! ## Files that are written -/

/-- What opening a file for writing does: it makes one, it empties the one that is there, or it
opens one whose content cannot be reached. -/
theorem createWith_eq_ok {mode : Mode} (h : v.createWith mode path = .ok (p, v')) :
    ∃ s, v.find .create path = .ok s ∧ s.place = p ∧
      ((v.face? p = none ∧ Puts v p (some (.file mode.masked .empty)) v') ∨
        (∃ old content, v.face? p = some (.file old content) ∧
          Puts v p (some (.file old.afterWrite .empty)) v') ∨
        (∃ given, v.face? p = some (.faulty given)) ∧ v' = v) := by
  unfold createWith at h
  obtain ⟨⟨d, name, node, closed⟩, hs, h⟩ := bind_eq_ok.mp h
  refine ⟨_, hs, ?_⟩
  cases name with
  | none => exact absurd h (by simp)
  | some n =>
    cases node with
    | none =>
      have hn : v.face? (d ++ [n]) = none := face?_of_spot hs rfl
      dsimp only at h
      cases ha : v.addEntry d n (.file mode.masked .empty) with
      | error k => rw [ha] at h; exact absurd h (by simp [Functor.map, Except.map])
      | ok v₁ =>
        rw [ha] at h
        cases h
        exact ⟨rfl, .inl ⟨hn, addEntry_eq_ok (fun _ _ => rfl) hn ha⟩⟩
    | some node =>
      have hnode : v.node? (d ++ [n]) = some node := (sound_of_find hs).get?_place rfl
      cases node with
      | file old content =>
        dsimp only at h
        split at h
        · cases h
          exact ⟨rfl, .inr (.inl ⟨old, content, face?_eq_some.mpr ⟨_, hnode, rfl⟩,
            puts_modify_file hnode rfl⟩)⟩
        · exact absurd h (by simp)
      | faulty =>
        cases h
        exact ⟨rfl, .inr (.inr ⟨⟨_, face?_eq_some.mpr ⟨_, hnode, rfl⟩⟩, rfl⟩)⟩
      | _ => exact absurd h (by simp)

theorem node?_of_file {mode : Mode} {c : Content} (h : v.face? p = some (.file mode c)) :
    v.node? p = some (.file mode c) := by
  obtain ⟨node, hn, hf⟩ := face?_eq_some.mp h
  cases node with
  | file => cases hf; exact hn
  | _ => exact absurd hf (by simp [Node.face])

theorem Content.eq_empty {c : Content} (h : c.isEmpty = true) : c = .empty := by
  unfold Content.isEmpty at h
  split at h
  · rfl
  · exact absurd h (by simp)

theorem node?_of_faulty {given : Bytes} (h : v.face? p = some (.faulty given)) :
    v.node? p = some (@Node.faulty given) := by
  obtain ⟨node, hn, hf⟩ := face?_eq_some.mp h
  cases node with
  | faulty => cases hf; exact hn
  | _ => exact absurd hf (by simp [Node.face])

theorem hasRoom_empty (v : Volume) : v.hasRoom .empty = true := by
  unfold hasRoom
  cases v.largest <;> simp [Content.empty, Content.octets]

theorem arriving_of_hasRoom {c : Content} (h : v.hasRoom c = true) : v.arriving c = c :=
  if_pos h

theorem puts_fill {mode : Mode} (hp : v.face? p = some (.file mode .empty)) (c : Content) :
    ∃ mode', mode'.reads = mode.reads ∧ Puts v p (some (.file mode' c)) (v.fill p c) := by
  unfold fill
  split
  · next hc => exact ⟨mode, rfl, rfl, by rw [hp, Content.eq_empty hc], fun _ _ => rfl⟩
  · exact ⟨mode.afterWrite, mode.reads_afterWrite, puts_modify_file (node?_of_file hp) rfl⟩

/-- An emptied file holds what arrives of what is written to it. -/
theorem puts_writeAt {mode : Mode} (hp : v.face? p = some (.file mode .empty)) (c : Content) :
    ∃ mode', mode'.reads = mode.reads ∧
      Puts v p (some (.file mode' (v.arriving c))) (v.writeAt p c).2 := by
  unfold writeAt
  split
  · next hc =>
    obtain rfl := Content.eq_empty hc
    rw [arriving_of_hasRoom v.hasRoom_empty]
    exact ⟨mode, rfl, rfl, hp, fun _ _ => rfl⟩
  · rw [node?_of_file hp]
    exact puts_fill hp _

/-- Nothing is written to a device that fails. -/
theorem writeAt_faulty {given : Bytes} (hp : v.face? p = some (.faulty given)) (c : Content) :
    (v.writeAt p c).2 = v := by
  unfold writeAt
  split
  · rfl
  · rw [node?_of_faulty hp]

/-- If all of a content is written then it arrives. -/
theorem arriving_of_writeAt {c : Content} (h : (v.writeAt p c).1 = .ok ()) : v.arriving c = c := by
  refine arriving_of_hasRoom ?_
  unfold writeAt at h
  split at h
  · next hc => exact Content.eq_empty hc ▸ v.hasRoom_empty
  split at h
  · exact absurd h (by simp)
  · by_contra hroom
    exact absurd h (by simp [hroom])

/-- All of a content is written to a file that can hold it. -/
theorem writeAt_of_hasRoom {mode : Mode} {c c' : Content} (hp : v.face? p = some (.file mode c'))
    (h : v.hasRoom c = true) : (v.writeAt p c).1 = .ok () := by
  unfold writeAt
  split
  · rfl
  · rw [node?_of_file hp]

/-- What is read is what is given, if nothing fails. -/
theorem readAt_eq_ok_iff_givenAt {c : Content} : v.readAt p = .ok c ↔ v.givenAt p = (c, none) := by
  unfold readAt
  rcases v.givenAt p with ⟨c', _ | k⟩ <;> simp

/-- A copy leaves what writing leaves of what is given. -/
theorem copyAt_snd (v : Volume) (p q : Place) :
    (v.copyAt p q).2 = (v.writeAt q (v.givenAt p).1).2 := by
  unfold copyAt
  rcases v.givenAt p with ⟨c, _ | k⟩ <;> rfl

/-- A copy succeeds just if all is read and all is written. -/
theorem copyAt_eq_ok : v.copyAt p q = (.ok (), v') ↔
    ∃ c, v.readAt p = .ok c ∧ v.writeAt q c = (.ok (), v') := by
  simp only [readAt_eq_ok_iff_givenAt]
  unfold copyAt
  rcases v.givenAt p with ⟨c, _ | k⟩
  · simp
  · dsimp only
    rcases v.writeAt q c with ⟨k' | u, v₁⟩ <;> simp [Except.bind]

/-- A file may be given any permissions. -/
theorem exists_setModeAt {mode : Mode} {c : Content} (hp : v.face? p = some (.file mode c))
    (mode' : Mode) :
    ∃ v', v.setModeAt p mode' = .ok v' ∧ Puts v p (some (.file mode' c)) v' := by
  have hnode := node?_of_file hp
  unfold setModeAt
  rw [hnode]
  exact ⟨_, rfl, puts_modify_file hnode rfl⟩

/-- A file that is made or emptied, and then written, holds what arrives of what was written. It may
be read if it is new or the old one might. -/
theorem puts_of_create {v₁ : Volume} (hcreate : v.create path = .ok (p, v₁)) (c : Content) :
    (∃ mode, Puts v p (some (.file mode (v₁.arriving c))) (v₁.writeAt p c).2 ∧
        (∀ fc, v.face? p = some fc → ∃ old c', fc = .file old c') ∧
        ((∀ old c', v.face? p = some (.file old c') → old.reads = true) → mode.reads = true)) ∨
      (∃ given, v.face? p = some (.faulty given)) ∧ (v₁.writeAt p c).2 = v := by
  obtain ⟨s, -, -, ⟨hnone, hputs⟩ | ⟨old, c', hold, hputs⟩ | ⟨⟨given, hfaulty⟩, rfl⟩⟩ :=
    createWith_eq_ok hcreate
  · obtain ⟨mode, hmode, hputs'⟩ := puts_writeAt hputs.face?_self c
    exact .inl ⟨mode, hputs.trans hputs', fun fc hfc => absurd (hnone.symm.trans hfc) (by simp),
      fun _ => hmode.trans Mode.reads_fileMode⟩
  · obtain ⟨mode, hmode, hputs'⟩ := puts_writeAt hputs.face?_self c
    refine .inl ⟨mode, hputs.trans hputs', fun fc hfc => ⟨old, c', ?_⟩, fun hreads => ?_⟩
    · exact Option.some.inj (hfc.symm.trans hold)
    · exact (hmode.trans old.reads_afterWrite).trans (hreads old c' hold)
  · exact .inr ⟨⟨given, hfaulty⟩, writeAt_faulty hfaulty c⟩

/-- A file that is opened for writing is found, and nothing but it may look different. -/
theorem find_of_createWith {mode : Mode} (h : v.createWith mode path = .ok (p, v')) :
    (∃ s, v.find .create path = .ok s ∧ s.place = p) ∧ ∀ q, q ≠ p → v'.face? q = v.face? q := by
  obtain ⟨s, hs, hp, ⟨-, hputs⟩ | ⟨_, _, -, hputs⟩ | ⟨-, rfl⟩⟩ := createWith_eq_ok h
  · exact ⟨⟨s, hs, hp⟩, hputs.face?_of_ne⟩
  · exact ⟨⟨s, hs, hp⟩, hputs.face?_of_ne⟩
  · exact ⟨⟨s, hs, hp⟩, fun _ _ => rfl⟩

/-! ## Calls that write to a file -/

/-- Something is at a place that is neither a directory nor a link. -/
def Ends (v : Volume) (p : Place) : Prop :=
  ∃ fc, v.face? p = some fc ∧ fc.EndsHere

theorem spares_modify {f : Node → Node} (hp : K p) (he : v.Ends p)
    (hf : ∀ x : Node, x.face.EndsHere → (f x).face.EndsHere) :
    Spares K v (v.modify p f) ∧ (v.modify p f).Ends p := by
  obtain ⟨fc, hfc, he⟩ := he
  obtain ⟨x, hx, rfl⟩ := face?_eq_some.mp hfc
  have hbelow : ∀ y : Node, y.face.EndsHere → ∀ m q, y.get? (m :: q) = none := by
    intro y hy
    exact Node.get?_eq_none_of_face fun mode hm => by rw [hm] at hy; exact hy
  have hputs := puts_modify hx (hbelow x he) (hbelow _ (hf x he))
  exact ⟨hputs.spares hp (fun old ho => Option.some.inj (hfc.symm.trans ho) ▸ he)
    fun new hn => Option.some.inj hn ▸ hf x he, _, hputs.face?_self, hf x he⟩

/-- A path that is opened for writing changes what it leads to. -/
theorem spares_createWith {mode : Mode} (hK : ∀ s, v.find .create path = .ok s → K s.place)
    (h : v.createWith mode path = .ok (p, v')) : K p ∧ Spares K v v' ∧ v'.Ends p := by
  obtain ⟨s, hs, rfl, ⟨hnone, hputs⟩ | ⟨_, _, hold, hputs⟩ | ⟨⟨_, hfaulty⟩, rfl⟩⟩ :=
    createWith_eq_ok h
  · refine ⟨hK s hs, hputs.spares (hK s hs) ?_ ?_, _, hputs.face?_self, trivial⟩
    · intro old ho
      exact absurd (hnone.symm.trans ho) (by simp)
    · intro new hn
      exact Option.some.inj hn ▸ trivial
  · refine ⟨hK s hs, hputs.spares (hK s hs) ?_ ?_, _, hputs.face?_self, trivial⟩
    · intro old ho
      exact Option.some.inj (hold.symm.trans ho) ▸ trivial
    · intro new hn
      exact Option.some.inj hn ▸ trivial
  · exact ⟨hK s hs, .refl _ _, _, hfaulty, trivial⟩

/-- What is written, be it only in part, changes the file that it is written to. -/
theorem spares_writeAt (hp : K p) (he : v.Ends p) (c : Content) : Spares K v (v.writeAt p c).2 := by
  unfold writeAt
  split
  · exact .refl _ _
  split
  · exact .refl _ _
  · dsimp only [fill]
    split
    · exact .refl _ _
    · exact (spares_modify hp he fun x hx => by cases x <;> exact hx).1

theorem spares_setModeAt {mode : Mode} (hp : K p) (he : v.Ends p)
    (h : v.setModeAt p mode = .ok v') : Spares K v v' ∧ v'.Ends p := by
  unfold setModeAt at h
  split at h
  · exact absurd h (by simp)
  · cases h
    exact spares_modify hp he fun x hx => by cases x <;> exact hx

/-- A copy, be it stopped half-way, changes what the path of its destination leads to. -/
theorem spares_copyFile {dest : Path} (hK : ∀ s, v.find .create dest = .ok s → K s.place) :
    Spares K v (v.copyFile path dest).2 := by
  unfold copyFile
  split
  · exact .refl _ _
  dsimp only
  split
  · exact .refl _ _
  next copy v₁ hcreate =>
  obtain ⟨hp, hspares, he⟩ := spares_createWith hK hcreate
  split
  · exact hspares
  next v₂ hmode =>
  obtain ⟨hspares₂, he₂⟩ := spares_setModeAt hp he hmode
  rw [copyAt_snd]
  exact (hspares.trans hspares₂).trans (spares_writeAt hp he₂ _)

/-! ## Entries that are removed -/

/-- What can be removed is an entry, and no directory, of a directory that may be changed. -/
theorem remove_eq_ok : v.remove path = .ok v' ↔
    ∃ d n node, v.find .keep path = .ok ⟨d, some n, some node, false⟩ ∧ v.canChange d = true ∧
      node.isDirectory = false ∧ v.modify d (Node.erase n) = v' := by
  unfold remove
  rw [bind_eq_ok]
  constructor
  · rintro ⟨⟨d, name, node, closed⟩, hs, h⟩
    cases name with
    | none => exact absurd h (by simp)
    | some n =>
      cases node with
      | none => exact absurd h (by simp)
      | some node =>
        dsimp only at h
        split at h
        · exact absurd h (by simp)
        next hclosed =>
        split at h
        · exact absurd h (by simp)
        next hchange =>
        split at h
        · exact absurd h (by simp)
        next hdir =>
        rw [Bool.eq_false_iff.mpr hclosed] at hs
        exact ⟨d, n, node, hs, by simpa using hchange, Bool.eq_false_iff.mpr hdir, Except.ok.inj h⟩
  · rintro ⟨d, n, node, hs, hchange, hdir, rfl⟩
    exact ⟨_, hs, by simp [hchange, hdir]⟩

theorem get?_eq_none_of_isDirectory {node : Node} (h : node.isDirectory = false) (n : Name)
    (q : Place) : node.get? (n :: q) = none := by
  cases node with
  | directory => exact absurd h (by simp [Node.isDirectory])
  | _ => rfl

/-- An entry that is removed is gone, and nothing else. -/
theorem puts_remove {node : Node} (hs : v.find .keep path = .ok ⟨d, some n, some node, false⟩)
    (hchange : v.canChange d = true) (hdir : node.isDirectory = false) :
    Puts v (d ++ [n]) none (v.modify d (Node.erase n)) :=
  let ⟨_, hd⟩ := canChange_eq_true hchange
  puts_erase hd ((sound_of_find hs).get?_place rfl) (get?_eq_none_of_isDirectory hdir)

/-- What moving an entry does: nothing if it is moved to itself, else the entry goes and comes in
place of what was there, which is a directory only if the entry is one. -/
theorem rename_eq_ok {path' : Path} (h : v.rename path path' = .ok v') :
    ∃ old new n m node, v.find .keep path = .ok old ∧ v.find .keep path' = .ok new ∧
      old.name = some n ∧ new.name = some m ∧ old.node = some node ∧
      (node.isDirectory = false → old.closed = false ∧ new.closed = false) ∧
      (old.place = new.place ∧ v' = v ∨
        old.place ≠ new.place ∧ ¬ new.place <+: old.directory ∧
        v.canChange old.directory = true ∧ v.canChange new.directory = true ∧
        (∀ there ∈ new.node, there.isDirectory = node.isDirectory) ∧
        v' = (v.modify old.directory (Node.erase n)).modify new.directory (Node.put m node)) := by
  unfold rename at h
  obtain ⟨old, hold, h⟩ := bind_eq_ok.mp h
  obtain ⟨new, hnew, h⟩ := bind_eq_ok.mp h
  split at h
  · next n m node hn hm hnode =>
    refine ⟨old, new, n, m, node, hold, hnew, hn, hm, hnode, ?_⟩
    split at h
    · exact absurd h (by simp)
    next hclosed =>
    split at h
    · exact absurd h (by simp)
    split at h
    · exact absurd h (by simp)
    next hout =>
    refine ⟨fun hd => by simpa [hd] using hclosed, ?_⟩
    split at h
    · next hsame => exact .inl ⟨hsame, (Except.ok.inj h).symm⟩
    next hne =>
    split at h
    · exact absurd h (by simp)
    next hchange =>
    simp only [Bool.not_eq_true', not_or, Bool.not_eq_false] at hchange
    refine .inr ⟨hne, hout, hchange.1, hchange.2, ?_⟩
    dsimp only at h
    split at h
    · next hthere hdir =>
      split at h
      · refine ⟨fun there ht => ?_, (Except.ok.inj h).symm⟩
        exact Option.some.inj (hthere.symm.trans ht) ▸ hdir.symm
      · exact absurd h (by simp)
    · exact absurd h (by simp)
    · exact absurd h (by simp)
    · next hfile hother =>
      refine ⟨fun there hthere => ?_, (Except.ok.inj h).symm⟩
      cases hd : node.isDirectory with
      | true => exact (hother there hthere hd).elim
      | false =>
        cases there with
        | directory mode entries => exact (hfile mode entries hthere hd).elim
        | _ => rfl
  · exact absurd h (by simp)
  · exact absurd h (by simp)

/-- What is moved elsewhere goes to a directory that may be changed. -/
theorem canChange_of_rename {path' : Path} (h : v.rename path path' = .ok v') :
    ∃ old new, v.find .keep path = .ok old ∧ v.find .keep path' = .ok new ∧
      (old.place ≠ new.place → v.canChange new.directory = true) := by
  obtain ⟨old, new, n, m, node, hold, hnew, -, -, -, -, h⟩ := rename_eq_ok h
  refine ⟨old, new, hold, hnew, fun hne => ?_⟩
  obtain ⟨he, -⟩ | ⟨-, -, -, hchange, -⟩ := h
  · exact absurd he hne
  · exact hchange

/-- What was at one place is at another, and nothing where it was. -/
structure Shifts (v : Volume) (p q : Place) (v' : Volume) : Prop where
  here : v'.here = v.here
  face?_target : v'.face? q = v.face? p
  face?_source : p ≠ q → v'.face? p = none
  face?_of_ne : ∀ r, r ≠ p → r ≠ q → v'.face? r = v.face? r

/-- What comes to a place and goes from there is put where it goes. -/
theorem Puts.shifts {fc : Face} (h : Puts v p (some fc) v') (hp : v.face? p = none)
    (hshift : Shifts v' p q v'') : Puts v q (some fc) v'' := by
  refine ⟨hshift.here.trans h.here, hshift.face?_target.trans h.face?_self, fun r hr => ?_⟩
  by_cases hrp : r = p
  · subst hrp
    exact (hshift.face?_source hr).trans hp.symm
  · exact (hshift.face?_of_ne r hrp hr).trans (h.face?_of_ne r hrp)

/-- An entry that is no directory is taken away and put elsewhere. -/
theorem shifts_modify {d' : Place} {m : Name} {x : Node} (hchange : v.canChange d = true)
    (hchange' : v.canChange d' = true) (hx : v.node? (d ++ [n]) = some x)
    (hdir : x.isDirectory = false) (hne : d ++ [n] ≠ d' ++ [m])
    (hthere : ∀ mode, v.face? (d' ++ [m]) ≠ some (.directory mode)) :
    Shifts v (d ++ [n]) (d' ++ [m]) ((v.modify d (Node.erase n)).modify d' (Node.put m x)) := by
  have hbelow := get?_eq_none_of_isDirectory hdir
  have hface : v.face? (d ++ [n]) = some x.face := face?_eq_some.mpr ⟨x, hx, rfl⟩
  obtain ⟨mode, hd⟩ := canChange_eq_true hchange
  obtain ⟨mode', hd'⟩ := canChange_eq_true hchange'
  have herase : Puts v (d ++ [n]) none (v.modify d (Node.erase n)) := puts_erase hd hx hbelow
  have hput : Puts (v.modify d (Node.erase n)) (d' ++ [m]) (some x.face)
      ((v.modify d (Node.erase n)).modify d' (Node.put m x)) := by
    refine puts_replace ((herase.face?_of_ne d' fun he => ?_).trans hd') (fun mode'' => ?_) hbelow
    · have hxdir := isDirectory_iff.mpr ⟨mode', Option.some.inj (hface.symm.trans (he ▸ hd'))⟩
      exact absurd (hxdir.symm.trans hdir) (by simp)
    · rw [herase.face?_of_ne _ hne.symm]
      exact hthere mode''
  refine ⟨hput.here.trans herase.here, hput.face?_self.trans hface.symm, fun _ => ?_, ?_⟩
  · rw [hput.face?_of_ne _ hne, herase.face?_self]
  · intro r hr hr'
    rw [hput.face?_of_ne r hr', herase.face?_of_ne r hr]

/-- What can be moved and is no directory shifts to an entry, which is no directory either. -/
theorem shifts_rename {path' : Path} {old : Spot} {x : Node} (hold : v.find .keep path = .ok old)
    (hx : old.node = some x) (hdir : x.isDirectory = false) (h : v.rename path path' = .ok v') :
    ∃ new m, v.find .keep path' = .ok new ∧ new.name = some m ∧ new.closed = false ∧
      (old.place ≠ new.place → v.canChange new.directory = true ∧
        ∀ mode, v.face? new.place ≠ some (.directory mode)) ∧
      Shifts v old.place new.place v' := by
  obtain ⟨old', new, n, m, x', hold', hnew, hn, hm, hx', hclosed, h⟩ := rename_eq_ok h
  obtain rfl := Except.ok.inj (hold.symm.trans hold')
  obtain rfl := Option.some.inj (hx.symm.trans hx')
  refine ⟨new, m, hnew, hm, (hclosed hdir).2, ?_⟩
  obtain ⟨he, rfl⟩ | ⟨hne, -, hchange, hchange', hthere, rfl⟩ := h
  · exact ⟨fun hne => absurd he hne, rfl, by rw [he], fun hne => absurd he hne, fun _ _ _ => rfl⟩
  have hface : ∀ mode, v.face? new.place ≠ some (.directory mode) := by
    intro mode hf
    obtain ⟨there, hnode, hf⟩ := face?_eq_some.mp hf
    have hsame := hthere there ((sound_of_find hnew).node.trans hnode)
    exact absurd ((isDirectory_iff.mpr ⟨mode, hf⟩).symm.trans (hsame.trans hdir)) (by simp)
  refine ⟨fun _ => ⟨hchange', hface⟩, ?_⟩
  have hplace : old.place = old.directory ++ [n] := by rw [Spot.place, hn]; rfl
  have hplace' : new.place = new.directory ++ [m] := by rw [Spot.place, hm]; rfl
  have hnode := (sound_of_find hold).get?_place hx
  rw [hplace] at hne hnode ⊢
  rw [hplace'] at hne hface ⊢
  exact shifts_modify hchange hchange' hnode hdir hne hface

/-! ## Files that are read -/

/-- Reads the file that a path leads to. -/
def readFile (v : Volume) (path : Path) : Except IoKind Content :=
  v.openFile path >>= v.readAt

/-- A path leads to a place. -/
def Leads (v : Volume) (path : Path) (p : Place) : Prop :=
  ∃ node, v.existing .follow path = .ok (p, node)

theorem Leads.inj (hp : v.Leads path p) (hq : v.Leads path q) : p = q := by
  obtain ⟨x, hx⟩ := hp
  obtain ⟨y, hy⟩ := hq
  exact (Prod.mk.inj (Except.ok.inj (hx.symm.trans hy))).1

theorem Leads.bytes_ne_nil (h : v.Leads path p) : path.bytes ≠ [] :=
  let ⟨_, hn⟩ := h
  let ⟨_, hs, _⟩ := existing_eq_ok.mp hn
  (find_eq_ok.mp hs).1.2.2

/-- A path leads still where it led if something is there. -/
theorem Leads.steady (h : v.Leads path p) (hv : Steady v v') {fc : Face}
    (hp : v'.face? p = some fc) : v'.Leads path p := by
  obtain ⟨node, hn⟩ := h
  obtain ⟨node', hn', -⟩ := face?_eq_some.mp hp
  exact ⟨node', hv.existing hn hn'⟩

/-- A path leads nowhere else than where it led. -/
theorem Steady.place_of_leads (hv : Steady v v') (h : v.Leads path p) (h' : v'.Leads path q) :
    q = p := by
  obtain ⟨node, hn⟩ := h
  obtain ⟨node', hn'⟩ := h'
  obtain ⟨s, hs, rfl, -⟩ := existing_eq_ok.mp hn
  obtain ⟨s', hs', rfl, -⟩ := existing_eq_ok.mp hn'
  rw [← Except.ok.inj ((hv.find hs).symm.trans hs')]
  rfl

theorem readAt_eq_ok {c : Content} :
    v.readAt p = .ok c ↔ ∃ mode, v.face? p = some (.file mode c) := by
  rw [readAt_eq_ok_iff_givenAt, givenAt, face?, Node.face?, ← node?]
  rcases v.node? p with _ | (_ | _ | _ | _ | _) <;> simp [Node.face]

theorem leads_of_openFile (h : v.openFile path = .ok p) : v.Leads path p := by
  unfold openFile at h
  obtain ⟨⟨q, node⟩, hn, h⟩ := bind_eq_ok.mp h
  refine ⟨node, ?_⟩
  cases node with
  | file mode content =>
    dsimp only at h
    split at h
    · exact Except.ok.inj h ▸ hn
    · exact absurd h (by simp)
  | directory mode entries =>
    dsimp only at h
    split at h
    · exact Except.ok.inj h ▸ hn
    · exact absurd h (by simp)
  | faulty => exact Except.ok.inj h ▸ hn
  | _ => exact absurd h (by simp)

/-- What is read is the content of a file that may be read. -/
theorem readFile_eq_ok {c : Content} : v.readFile path = .ok c ↔
    ∃ q mode, v.Leads path q ∧ v.face? q = some (.file mode c) ∧ mode.reads = true := by
  unfold readFile
  rw [bind_eq_ok]
  constructor
  · rintro ⟨q, hopen, hread⟩
    obtain ⟨mode, hq⟩ := readAt_eq_ok.mp hread
    refine ⟨q, mode, leads_of_openFile hopen, hq, ?_⟩
    obtain ⟨node, hn⟩ := leads_of_openFile hopen
    obtain rfl := Option.some.inj ((node?_of_existing hn).symm.trans (node?_of_file hq))
    by_contra hm
    simp [openFile, hn, hm, bind, Except.bind] at hopen
  · rintro ⟨q, mode, ⟨node, hn⟩, hq, hm⟩
    obtain rfl := Option.some.inj ((node?_of_existing hn).symm.trans (node?_of_file hq))
    exact ⟨q, by simp [openFile, hn, hm, bind, Except.bind], readAt_eq_ok.mpr ⟨mode, hq⟩⟩

theorem Leads.exists_face (h : v.Leads path p) : ∃ fc, v.face? p = some fc :=
  let ⟨node, hn⟩ := h
  ⟨node.face, face?_eq_some.mpr ⟨node, node?_of_existing hn, rfl⟩⟩

/-- A path leads still to a place that is spared. -/
theorem Spares.leads (h : Spares K v v') (hq : v.Leads path q) (hK : ¬ K q) : v'.Leads path q := by
  obtain ⟨fc, hfc⟩ := hq.exists_face
  exact hq.steady h.toSteady (h.kept q hK fc hfc)

/-- A file is read as before if its place is spared. -/
theorem Spares.readFile_eq_ok (h : Spares K v v') (hq : v.Leads path q) (hK : ¬ K q) {c : Content} :
    v'.readFile path = .ok c ↔ v.readFile path = .ok c := by
  rw [Volume.readFile_eq_ok, Volume.readFile_eq_ok]
  constructor
  · rintro ⟨p, mode, hp, hface, hreads⟩
    obtain rfl := (h.leads hq hK).inj hp
    exact ⟨q, mode, hq, (h.face?_file hK).mp hface, hreads⟩
  · rintro ⟨p, mode, hp, hface, hreads⟩
    obtain rfl := hq.inj hp
    exact ⟨q, mode, h.leads hq hK, (h.face?_file hK).mpr hface, hreads⟩

end Volume

end Depot
