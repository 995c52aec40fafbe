import Depot.Proofs.Bundle
import Depot.Proofs.Volume.Survey

/-!
# A bundle is the tree

A bundle is written aside and then moved, so that its destination changes at once.

* `Volume.puts_of_move`: a file that is written where nothing was and then moved is put where it is
  moved to, and no other place changes. The path of the destination reads it, unless that path leads
  through a link of which the file takes the place.
* `Bundle.packs_of_puts`: the file that is being written makes no difference to what is packed. It
  may be below the folder, and there may be links to it; what a walk has found is another file.
* `Bundle.make_packs`: the bundle has a member for each file that was collected, in their order, and
  each packs its file.

This is `zip_dir` where it succeeds. That the fresh name is not taken is a hypothesis. Out of scope:
how an archive is compressed, and that its octets are read back as its members.
-/

namespace Depot

namespace Volume

variable {v v' v₁ v₂ v₃ : Volume} {path dest : Path} {p t : Place} {c : Content}

/-! ## A file that is written aside and moved -/

/-- A file that is put where a path names an entry is read by the path, if the path names that entry
without what was there. -/
theorem readFile_of_puts {mode : Mode} (hputs : Puts v p (some (.file mode c)) v')
    (hreads : mode.reads = true) (hnames : v.Names path p) (hclosed : path.isClosed = false)
    (hnone : (v.without path).face? p = none) (h : (v.without path).Names path p) :
    v'.readFile path = .ok c := by
  have hputs' : Puts (v.without path) p (some (.file mode c)) v' := by
    refine ⟨hputs.here.trans (here_without v path).symm, hputs.face?_self, fun q hq => ?_⟩
    rw [hputs.face?_of_ne q hq, face?_without fun hn => hq (hn.inj hnames)]
  have hsteady : Steady (v.without path) v' :=
    hputs'.steady (fun old ho => absurd (hnone.symm.trans ho) (by simp))
      fun new hn => Option.some.inj hn ▸ trivial
  obtain ⟨s, hs, rfl⟩ := h
  have hnode : s.node = none :=
    (sound_of_find hs).node.trans (Node.face?_eq_none.mp hnone)
  have hfollow := hsteady.find (find_follow hs fun _ _ => hnode ▸ rfl)
  refine readFile_eq_ok.mpr ⟨s.place, mode, ⟨_, existing_eq_ok.mpr ⟨_, hfollow, rfl,
    node?_of_file hputs.face?_self, fun hc => ?_⟩⟩, hputs.face?_self, hreads⟩
  exact absurd (hc.symm.trans ((closed_of_find_keep hs).trans hclosed)) (by simp)

/-- Whether a file is written or not, lookups lead to the same places. -/
theorem steady_of_create (hcreate : v.create path = .ok (t, v₁)) (c : Content) :
    Steady v (v₁.writeAt t c).2 ∧ Steady (v₁.writeAt t c).2 v := by
  obtain ⟨mode, hputs, hold, -⟩ | ⟨-, hsame⟩ := puts_of_create hcreate c
  · have hends : ∀ fc, v.face? t = some fc → fc.EndsHere := by
      intro fc hfc
      obtain ⟨old, c', rfl⟩ := hold fc hfc
      trivial
    have hnew : ∀ fc, some (Face.file mode (v₁.arriving c)) = some fc → fc.EndsHere := by
      intro fc hfc
      exact Option.some.inj hfc ▸ trivial
    exact ⟨hputs.steady hends hnew, hputs.steady_symm hends hnew⟩
  · rw [hsame]
    exact ⟨.refl _, .refl _⟩

/-- A file that is written where nothing was, be it only in part, is the one that the path names. -/
theorem find_keep_of_create (hfresh : ∀ q, v.Names path q → v.face? q = none)
    (hcreate : v.create path = .ok (t, v₁)) {old : Spot}
    (hold : (v₁.writeAt t c).2.find .keep path = .ok old) :
    old.place = t ∧ v.face? t = none ∧ ∃ mode, mode.reads = true ∧
      Puts v t (some (.file mode (v₁.arriving c))) (v₁.writeAt t c).2 := by
  have hfind := (steady_of_create hcreate c).2.find hold
  have hnone : v.face? old.place = none := hfresh _ ⟨_, hfind, rfl⟩
  have hfollow := find_follow hfind fun _ _ => by
    rw [show (old.seenIn v.root).node = none from Node.face?_eq_none.mp hnone]
    rfl
  obtain ⟨s, hs, rfl, -⟩ := createWith_eq_ok hcreate
  obtain rfl := Except.ok.inj (hfollow.symm.trans (find_follow_of_create hs))
  refine ⟨rfl, hnone, ?_⟩
  obtain ⟨mode, hputs, -, hreads⟩ | ⟨⟨_, hfaulty⟩, -⟩ := puts_of_create hcreate c
  · exact ⟨mode, hreads fun old c' ho => absurd (hnone.symm.trans ho) (by simp), hputs⟩
  · exact absurd (hnone.symm.trans hfaulty) (by simp)

/-- A file that is written where nothing was and then moved is put where it is moved to, and no
other place changes. -/
theorem puts_of_move (hfresh : ∀ q, v.Names path q → v.face? q = none)
    (hcreate : v.create path = .ok (t, v₁)) (hfill : v₁.writeAt t c = (.ok (), v₂))
    (hmove : v₂.rename path dest = .ok v₃) :
    v.face? t = none ∧ ∃ p mode, v.Names dest p ∧ Puts v p (some (.file mode c)) v₃ ∧
      ((v.without dest).Names dest p → v₃.readFile dest = .ok c) := by
  obtain rfl : (v₁.writeAt t c).2 = v₂ := congrArg Prod.snd hfill
  obtain ⟨old, -, -, -, node, hold, -, -, -, hnode, -⟩ := rename_eq_ok hmove
  obtain ⟨rfl, hnone, mode, hreads, hputs⟩ := find_keep_of_create hfresh hcreate hold
  rw [arriving_of_writeAt (congrArg Prod.fst hfill)] at hputs
  obtain rfl : node = .file mode c := Option.some.inj <|
    ((sound_of_find hold).get?_place hnode).symm.trans (node?_of_file hputs.face?_self)
  obtain ⟨new, m, hnew, hm, hclosed, hthere, hshifts⟩ := shifts_rename hold hnode rfl hmove
  have hback := (steady_of_create hcreate c).2
  have hnew' := hback.find hnew
  have hplaced := hputs.shifts hnone hshifts
  refine ⟨hnone, new.place, mode, ⟨_, hnew', rfl⟩, hplaced, fun h => ?_⟩
  refine readFile_of_puts hplaced hreads ⟨_, hnew', rfl⟩
    ((closed_of_find_keep hnew).symm.trans hclosed) ?_ h
  by_cases hsame : old.place = new.place
  · refine Option.eq_none_iff_forall_ne_some.mpr fun fc hfc => ?_
    exact absurd (face?_of_without hfc) (by simp [← hsame, hnone])
  · obtain ⟨hchange, hdir⟩ := hthere hsame
    refine face?_without_self (s := new.seenIn v.root) hnew' hm hclosed (hback.canChange hchange) ?_
    intro mode' hd
    refine hdir mode' ?_
    exact (hputs.face?_of_ne _ (Ne.symm hsame)).trans hd

end Volume

namespace Bundle

open Volume

variable {v v₁ : Volume} {w w' : World} {source dest : Path} {n : Nat}

/-! ## What the members pack -/

/-- What is packed of a file that a walk found was there before another file was made. -/
theorem packs_of_puts {found : List Found} {f : Found} {m : Member Content} {t : Place} {fc : Face}
    (hordered : v.Ordered) (hwalk : v.walk source = .ok found) (hf : f ∈ found)
    (hputs : Puts v t (some fc) v₁) (hnone : v.face? t = none) (hends : fc.EndsHere)
    (h : Packs v₁ (.ofFound f) m) : Packs v (.ofFound f) m := by
  have hnew : ∀ new, some fc = some new → new.EndsHere := fun new hn => Option.some.inj hn ▸ hends
  have hold : ∀ old, v.face? t = some old → old.EndsHere := fun old ho =>
    absurd (hnone.symm.trans ho) (by simp)
  obtain ⟨q, mode, hq, hface, hreads, hmode⟩ := h.packed
  obtain ⟨fc', hfc'⟩ := face?_of_found hordered (hputs.steady hold hnew) hwalk hf hq
  have hne : q ≠ t := by
    rintro rfl
    exact absurd (hnone.symm.trans hfc') (by simp)
  have hface' := (hputs.face?_of_ne q hne).symm.trans hface
  have hback : Steady v₁ v := hputs.steady_symm hold hnew
  exact ⟨h.name, h.method, q, mode, hq.steady hback hface', hface', hreads, hmode⟩

/-- A file is packed in one way. -/
theorem Packs.eq {file : SourceFile} {m m' : Member Content} (h : Packs v file m)
    (h' : Packs v file m') : m = m' := by
  obtain ⟨q, mode, hq, hface, -, hmode⟩ := h.packed
  obtain ⟨q', mode', hq', hface', -, hmode'⟩ := h'.packed
  obtain rfl := hq.inj hq'
  obtain ⟨rfl, hcontent⟩ := Face.file.inj (Option.some.inj (hface.symm.trans hface'))
  cases m
  cases m'
  exact Member.mk.injEq .. ▸ ⟨h.name.trans h'.name.symm, h.method.trans h'.method.symm,
    hmode.trans hmode'.symm, hcontent⟩

/-- **A bundle is the tree.** Its members are the files that were collected, in their order, each
under its key, deflated, with its permissions and its content; the entry that the destination named
holds the archive of them, and nothing else has changed. The path of the destination leads to it,
unless it leads there through the link that the bundle replaces. -/
theorem make_packs (hordered : w.volume.Ordered)
    (hfresh : ∀ q, w.volume.Names (dest.beside (World.nonceDigits w.nonces)) q →
      w.volume.face? q = none)
    (h : w.perform (make source dest).run = (.ok n, w')) :
    ∃ files ms c p mode, w.perform (collect source).run = (.ok files, w) ∧
      List.Forall₂ (Packs w.volume) files ms ∧ ms.length = n ∧ c.members? = some ms ∧
      w.volume.Names dest p ∧ Puts w.volume p (some (.file mode c)) w'.volume ∧
      w' = { w with volume := w'.volume, nonces := w.nonces + 1 } ∧
      ((w.volume.without dest).Names dest p → w'.volume.readFile dest = .ok c) := by
  have hcourse := perform_make source dest w
  rw [h] at hcourse
  cases hcourse with
  | @made files w₁ v hfiles hwrite hmove =>
    obtain ⟨t, v₁, ms, v₂, hcreate, hpacks, -, hfill, rfl⟩ := writeArchive_eq_ok hwrite
    obtain ⟨hnone, p, mode, hnames, hputs, hread⟩ := puts_of_move hfresh hcreate hfill hmove
    refine ⟨files, ms, .ofMembers ms, p, mode, hfiles, ?_, hpacks.length_eq.symm,
      Content.members?_ofMembers ms, hnames, hputs, rfl, hread⟩
    obtain ⟨⟨found, hwalk, rfl⟩, -⟩ := collect_eq_ok.mp hfiles
    obtain ⟨s, -, rfl, ⟨-, hnew⟩ | ⟨_, _, hold, -⟩ | ⟨⟨_, hfaulty⟩, -⟩⟩ :=
      createWith_eq_ok hcreate
    · have hmem : ∀ file ∈ found.map SourceFile.ofFound, ∃ f ∈ found, .ofFound f = file :=
        fun _ => List.mem_map.mp
      refine ((List.forall₂_and_left _ _).mpr ⟨hmem, hpacks⟩).imp ?_
      rintro _ m ⟨⟨f, hf, rfl⟩, hm⟩
      exact packs_of_puts hordered hwalk hf hnew hnone trivial hm
    · exact absurd (hnone.symm.trans hold) (by simp)
    · exact absurd (hnone.symm.trans hfaulty) (by simp)

/-- A folder with an empty file, a file that sets the user, and a link to that one. -/
def setuidAndLink : World :=
  .ofVolume ⟨.directory 0o755
    [(.ofText "src" isName_src, .directory 0o755
       [(.ofText "empty" (by decide), .file 0o600 .empty),
        (.ofText "exec" (by decide), .file 0o4750 (.plain [0x31])),
        (.ofText "link" (by decide), .link (.ofString "exec"))])], [], none⟩ ""

/-- The files of the folder. -/
def treeFiles : List SourceFile :=
  [⟨"empty", .ofString "src/empty"⟩, ⟨"exec", .ofString "src/exec"⟩,
    ⟨"link", .ofString "src/link"⟩]

/-- What the files of the folder are packed into. -/
def treeMembers : List (Member Content) :=
  [⟨"empty", .deflated, 0o600, .empty⟩, ⟨"exec", .deflated, 0o750, .plain [0x31]⟩,
    ⟨"link", .deflated, 0o750, .plain [0x31]⟩]

theorem packs_treeMembers : List.Forall₂ (Packs setuidAndLink.volume) treeFiles treeMembers := by
  have hempty : Packs setuidAndLink.volume ⟨"empty", .ofString "src/empty"⟩
      ⟨"empty", .deflated, 0o600, .empty⟩ :=
    ⟨rfl, rfl, [.ofText "src" isName_src, .ofText "empty" (by decide)], 0o600,
      leads_of_openFile (by decide +kernel), rfl, rfl, rfl⟩
  -- the link leads to the other file
  have hfile : ∀ path, setuidAndLink.volume.openFile path
      = .ok [.ofText "src" isName_src, .ofText "exec" (by decide)] →
        ∀ key, Packs setuidAndLink.volume ⟨key, path⟩ ⟨key, .deflated, 0o750, .plain [0x31]⟩ :=
    fun path hopen key => ⟨rfl, rfl, _, 0o4750, leads_of_openFile hopen, rfl, rfl, rfl⟩
  exact .cons hempty <| .cons (hfile _ (by decide +kernel) _) <|
    .cons (hfile _ (by decide +kernel) _) .nil

/-- The bundle takes the place of the link in the folder. -/
theorem make_packs_setuidAndLink :
    setuidAndLink.volume.Ordered ∧
      (∀ q, setuidAndLink.volume.Names ((Path.ofString "src/link").beside
        (World.nonceDigits setuidAndLink.nonces)) q → setuidAndLink.volume.face? q = none) ∧
      ∃ w' c,
        setuidAndLink.perform (make (.ofString "src") (.ofString "src/link")).run = (.ok 3, w') ∧
        w'.volume.readFile (.ofString "src/link") = .ok c ∧ c.members? = some treeMembers := by
  have hordered : setuidAndLink.volume.Ordered := by decide +kernel
  have hfresh : ∀ q, setuidAndLink.volume.Names ((Path.ofString "src/link").beside
      (World.nonceDigits setuidAndLink.nonces)) q → setuidAndLink.volume.face? q = none := by
    have hnone : (setuidAndLink.volume.find .keep ((Path.ofString "src/link").beside
        (World.nonceDigits setuidAndLink.nonces))).map
          (fun s => (setuidAndLink.volume.face? s.place).isNone) = .ok true := by decide +kernel
    rintro q ⟨s, hs, rfl⟩
    rw [hs] at hnone
    exact Option.isNone_iff_eq_none.mp (Except.ok.inj hnone)
  have hcollect : setuidAndLink.perform (collect (.ofString "src")).run
      = (.ok treeFiles, setuidAndLink) :=
    Prod.ext (by decide +kernel) rfl
  have hmake : setuidAndLink.perform (make (.ofString "src") (.ofString "src/link")).run
      = (.ok 3, (setuidAndLink.perform (make (.ofString "src") (.ofString "src/link")).run).2) :=
    Prod.ext (by decide +kernel) rfl
  obtain ⟨files, ms, c, p, mode, hfiles, hms, -, hc, hp, -, -, hread⟩ :=
    make_packs hordered hfresh hmake
  obtain rfl := Except.ok.inj (Prod.mk.inj (hfiles.symm.trans hcollect)).1
  obtain rfl : ms = treeMembers :=
    List.right_unique_forall₂' (fun _ _ _ h h' => h.eq h') hms packs_treeMembers
  have hplace : p = [.ofText "src" isName_src, .ofText "link" (by decide)] :=
    hp.inj (by decide +kernel)
  exact ⟨hordered, hfresh, _, c, hmake, hread (hplace ▸ by decide +kernel), hc⟩

/-- A folder with a file, beside a link to the directory that both are in. -/
def selfLink : World :=
  .ofVolume ⟨.directory 0o755
    [(.ofText "link" (by decide), .link (.ofString ".")),
     (.ofText "src" isName_src, .directory 0o755
       [(.ofText "e" isName_e, .file 0o644 (.plain [0x31]))])], [], none⟩ ""

/-- The world after the folder was bundled by way of the link. -/
def bundledByLink : World :=
  (selfLink.perform (make (.ofString "src") (.ofString "link/link")).run).2

/-- The bundle takes the place of the link through which the path of its destination leads. -/
theorem not_made_selfLink :
    selfLink.volume.Ordered ∧
      selfLink.perform (make (.ofString "src") (.ofString "link/link")).run
        = (.ok 1, bundledByLink) ∧
      ∀ c, bundledByLink.volume.readFile (.ofString "link/link") ≠ .ok c := by
  refine ⟨by decide +kernel, Prod.ext (by decide +kernel) rfl, fun c hread => ?_⟩
  have hopen : bundledByLink.volume.openFile (.ofString "link/link") = .error .notADirectory := by
    decide +kernel
  obtain ⟨q, hq, -⟩ := bind_eq_ok.mp hread
  exact absurd (hopen.symm.trans hq) (by simp)

end Bundle

end Depot
