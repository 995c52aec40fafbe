import Depot.Proofs.Bundle.Exact
import Depot.Proofs.Folder.Bundles

/-!
# Bundles that cannot be made

A bundle is written to a file of its own beside its destination. Whatever fails on the way, the file
is removed if it was made, and else there is nothing to remove.

* `Node.modify_eq_self`, `Node.erase_put`, `Node.erase_modify`: an entry that is put into an ordered
  directory and taken away again leaves the tree as it was, be it changed in between.
* `Volume.fileName?_of_find_keep`: a lookup names an entry only if the path has a file name. So
  nothing is made or removed by a path without one.
* `Volume.Unused.without_of_create`: a file that is made where nothing was, and removed after it was
  written to or not, leaves the volume as it was.
* `undone_of_error`: **if no bundle is made then nothing has changed**, neither by the making of a
  bundle nor by a request for one.

This is `zip_dir` where it fails, with its two places to clean up, and `download` of a
`LocalStorage`. That the fresh name is not taken is a hypothesis. Out of scope: a file that cannot
be removed again although it was just made, which a directory that may be changed rules out.
-/

namespace Depot

/-! ## Entries that are put and taken away -/

namespace Node

variable {node x : Node} {n : Name} {p : Place}

/-- A change at a place of two parts is a change of what is at the first one. -/
theorem modify_append (f : Node → Node) (node : Node) (p q : Place) :
    node.modify f (p ++ q) = node.modify (modify f q) p := by
  induction p generalizing node with
  | nil => rfl
  | cons n p ih =>
    cases node with
    | directory mode entries => simp only [List.cons_append, modify, ih]
    | _ => rfl

theorem modify_modify (f g : Node → Node) (node : Node) (p : Place) :
    (node.modify f p).modify g p = node.modify (g ∘ f) p := by
  induction p generalizing node with
  | nil => rfl
  | cons n p ih =>
    cases node with
    | directory mode entries =>
      simp only [modify, List.map_map]
      congr 1
      refine List.map_congr_left fun e _ => ?_
      by_cases h : e.1 = n <;> simp [h, ih]
    | _ => rfl

/-- Where a node is left as it is, so is the tree. -/
theorem modify_eq_self {f : Node → Node} (h : node.isOrdered = true) (hx : node.get? p = some x)
    (hf : f x = x) : node.modify f p = node := by
  induction p generalizing node with
  | nil =>
    rw [get?_nil] at hx
    obtain rfl := Option.some.inj hx
    exact hf
  | cons n p ih =>
    obtain ⟨mode, entries, child, rfl, hn, hchild⟩ := get?_cons hx
    have hentries : areOrdered entries = true := h
    rw [modify]
    congr 1
    refine (List.map_congr_left fun e he => ?_).trans (List.map_id _)
    split
    · next hen =>
      -- there is one entry of the name
      have he' : entries.lookup n = some e.2 := (lookup_eq_some_iff_mem hentries).mpr (hen ▸ he)
      obtain rfl := Option.some.inj (he'.symm.trans hn)
      rw [ih (isOrdered_of_mem hentries he) hchild]
      rfl
    · rfl

theorem filter_insertEntry (n : Name) (x : Node) (entries : List (Name × Node)) :
    (insertEntry n x entries).filter (fun e => e.1 ≠ n) = entries.filter fun e => e.1 ≠ n := by
  induction entries with
  | nil => simp [insertEntry]
  | cons e rest ih =>
    obtain ⟨m, y⟩ := e
    rw [insertEntry]
    split
    · next h => simp [h]
    · split
      · simp
      · rw [List.filter_cons, ih, List.filter_cons]

/-- What is put goes if it is taken away. -/
theorem erase_put (n : Name) (x node : Node) : erase n (put n x node) = erase n node := by
  cases node with
  | directory mode entries => exact congrArg (directory mode) (filter_insertEntry n x entries)
  | _ => rfl

/-- What was changed goes if it is taken away. -/
theorem erase_modify (f : Node → Node) (n : Name) (node : Node) :
    erase n (node.modify f [n]) = erase n node := by
  cases node with
  | directory mode entries =>
    simp only [modify, erase]
    congr 1
    induction entries with
    | nil => rfl
    | cons e rest ih =>
      rw [List.map_cons, List.filter_cons, ih, List.filter_cons]
      by_cases h : e.1 = n <;> simp [h]
  | _ => rfl

/-- There is nothing to take away where no entry has the name. -/
theorem erase_eq_self (h : node.get? [n] = none) : erase n node = node := by
  cases node with
  | directory mode entries =>
    have hlookup : entries.lookup n = none := by simpa [get?] using h
    refine congrArg (directory mode) (List.filter_eq_self.mpr fun e he => decide_eq_true ?_)
    rintro rfl
    exact absurd (List.lookup_eq_none_iff.mp hlookup e he) (by simp)
  | _ => rfl

end Node

namespace Volume

variable {v v₁ v₂ v' : Volume} {path : Path} {d p t : Place} {n : Name} {c : Content} {s : Spot}
  {root : Node} {closed : Bool} {segments : List Segment}

/-- An entry that is put where nothing was, and taken away, leaves the volume as it was. -/
theorem Ordered.erase_put (h : v.Ordered) {x : Node} {mode : Mode}
    (hd : v.face? d = some (.directory mode)) (hnone : v.face? (d ++ [n]) = none) :
    (v.modify d (Node.put n x)).modify d (Node.erase n) = v := by
  obtain ⟨entries, hnode⟩ := node?_of_directory hd
  have hn : (Node.directory mode entries).get? [n] = none := by
    have hget := Node.face?_eq_none.mp hnone
    rwa [Node.get?_append, show v.root.get? d = _ from hnode] at hget
  have hroot : (v.root.modify (Node.put n x) d).modify (Node.erase n) d = v.root := by
    rw [Node.modify_modify]
    refine Node.modify_eq_self h hnode ?_
    rw [Function.comp_apply, Node.erase_put, Node.erase_eq_self hn]
  exact congrArg (fun root => ({ v with root } : Volume)) hroot

/-- What was written goes if the entry is taken away. -/
theorem erase_of_writeAt (v : Volume) (d : Place) (n : Name) (c : Content) :
    (v.writeAt (d ++ [n]) c).2.modify d (Node.erase n) = v.modify d (Node.erase n) := by
  unfold writeAt
  split
  · rfl
  split
  · rfl
  dsimp only [fill]
  split
  · rfl
  · refine congrArg (fun root => ({ v with root } : Volume)) ?_
    rw [modify, Node.modify_append, Node.modify_modify]
    congr 1
    funext node
    exact Node.erase_modify _ n node

/-- What opening a file for writing does where there is none. -/
theorem createWith_of_missing {mode : Mode} (hs : v.find .create path = .ok s)
    (hn : s.name = some n) (hnode : s.node = none) (h : v.createWith mode path = .ok (p, v')) :
    v.canChange s.directory = true ∧
      v' = v.modify s.directory (Node.put n (.file mode.masked .empty)) := by
  obtain ⟨d, name, node, closed⟩ := s
  obtain rfl : name = some n := hn
  obtain rfl : node = none := hnode
  unfold createWith at h
  rw [hs] at h
  by_cases hc : v.canChange d = true
  · simp [bind, Except.bind, addEntry, hc, Functor.map, Except.map] at h
    exact ⟨hc, h.2.symm⟩
  · simp [bind, Except.bind, addEntry, hc, Functor.map, Except.map] at h

/-! ## Lookups of names -/

/-- A hop ends with a name, or has it as the last component that it leads on with. -/
def Hop.EndsWith (n : Name) : Hop → Prop
  | .spot s => s.name = some n
  | .onward _ segments _ => [.name n] <:+ segments

/-- The last component stays the last while links are followed. -/
theorem endsWith_of_hop_keep {r : Hop} (h : hop root .keep closed p segments = .ok r)
    (hr : r.EndsWith n) : [.name n] <:+ segments := by
  rw [hop_eq_ok] at h
  induction h with
  | here hspot => exact absurd hr (by simp [hspot, Hop.EndsWith])
  | @name p m _ ha =>
    obtain ⟨-, -, ⟨_, hk, -⟩ | ⟨-, rfl⟩⟩ := arrive_eq_ok.mp ha
    · exact absurd rfl hk
    · obtain rfl : m = n := Option.some.inj hr
      exact List.suffix_rfl
  | link hne _ _ _ hthrough =>
    subst hthrough
    refine List.IsSuffix.trans ?_ (List.suffix_cons _ _)
    exact List.suffix_of_suffix_length_le hr (List.suffix_append _ _) (List.length_pos_iff.mpr hne)
  | stay _ _ ih | up _ _ ih | pass _ _ _ _ _ _ ih => exact ih.trans (List.suffix_cons _ _)

theorem endsWith_of_locate_keep {hops : Nat}
    (h : locate root .keep hops (.onward p segments closed) = .ok s) (hn : s.name = some n) :
    [.name n] <:+ segments := by
  induction h using locate_induction with
  | found _ hhop => exact endsWith_of_hop_keep hhop hn
  | onward _ _ hhop ih => exact endsWith_of_hop_keep hhop ih

/-- A path that is found to name an entry ends with the name. -/
theorem fileName?_of_find_keep (h : v.find .keep path = .ok s) (hn : s.name = some n) :
    path.fileName? = some n := by
  obtain ⟨before, hroute⟩ := endsWith_of_locate_keep (find_eq_ok.mp h).2 hn
  have hsteps : path.pieces.filterMap Path.step? = path.route.filterMap Segment.step? := by
    rw [Path.route_eq, List.filterMap_filterMap]
    refine List.filterMap_congr fun b _ => ?_
    by_cases hb : b = [] <;> simp [Path.ask?, Path.step?, hb]
    rfl
  have hlast : path.steps = ((if path.isAbsolute then [.root] else [])
      ++ before.filterMap Segment.step?) ++ [.name n] := by
    rw [Path.steps_eq, hsteps, ← hroute, List.filterMap_append, ← List.append_assoc]
    rfl
  exact Path.fileName?_of_steps hlast

/-! ## Files that are made and removed -/

/-- Where a path names an entry there is nothing. -/
def Unused (v : Volume) (path : Path) : Prop :=
  ∀ s n, v.find .keep path = .ok s → s.name = some n → s.node = none

theorem unused_of_names (h : ∀ q, v.Names path q → v.face? q = none) : v.Unused path :=
  fun s _ hs _ => (sound_of_find hs).node.trans (Node.face?_eq_none.mp (h _ ⟨s, hs, rfl⟩))

theorem unused_of_fileName?_eq_none (h : path.fileName? = none) : v.Unused path :=
  fun _ _ hs hn => absurd (h.symm.trans (fileName?_of_find_keep hs hn)) (by simp)

/-- Where there is nothing, nothing is removed. -/
theorem Unused.without (h : v.Unused path) : v.without path = v := by
  obtain hv | ⟨d, n, node, hs, -⟩ := v.without_cases path
  · exact hv
  · exact absurd (h _ n hs rfl) (by simp)

/-- A file that is made where nothing was, and removed, leaves the volume as it was. -/
theorem Unused.without_of_create (h : v.Unused path) (hordered : v.Ordered)
    (hcreate : v.create path = .ok (t, v₁)) (c : Content) :
    (v₁.writeAt t c).2.without path = v := by
  obtain ⟨hsteady, hback⟩ := steady_of_create hcreate c
  have hmakes := makes_of_createWith hcreate
  obtain ⟨fc, hfc⟩ : ∃ fc, (v₁.writeAt t c).2.face? t = some fc := by
    obtain ⟨mode, hputs, -⟩ | ⟨⟨given, hfaulty⟩, hsame⟩ := puts_of_create hcreate c
    · exact ⟨_, hputs.face?_self⟩
    · exact ⟨_, hsame ▸ hfaulty⟩
  obtain ⟨old, node, hold, hnode⟩ := exists_find_keep ((hmakes.steady hsteady).leads hfc)
  obtain ⟨s, n, hs, hn, -⟩ := hmakes
  -- the path names the entry that was made, and named it before
  have hkeep := hback.find hold
  have hfollow := find_follow hkeep fun m hm => by
    rw [h _ m hkeep hm]
    rfl
  obtain rfl := Except.ok.inj ((find_follow_of_create hs).symm.trans hfollow)
  have hmissing := h _ n hkeep hn
  have hfresh : ∀ q, v.Names path q → v.face? q = none := by
    rintro q ⟨s, hs', rfl⟩
    obtain rfl := Except.ok.inj (hkeep.symm.trans hs')
    exact face?_of_spot hkeep hmissing
  obtain ⟨rfl, hnone, mode, -, hputs⟩ := find_keep_of_create hfresh hcreate hold
  have hfile : node = .file mode (v₁.arriving c) := Option.some.inj <|
    ((sound_of_find hold).get?_place hnode).symm.trans (node?_of_file hputs.face?_self)
  obtain ⟨hchange, rfl⟩ := createWith_of_missing hs hn hmissing hcreate
  have hclosed := closed_of_find_create hs hn
  obtain ⟨d, name, found, closed⟩ := old
  obtain rfl : name = some n := hn
  obtain rfl : closed = false := hclosed
  obtain rfl : found = some node := hnode
  obtain ⟨mode', hd⟩ := canChange_eq_true hchange
  have hremove := remove_eq_ok.mpr ⟨d, n, node, hold, hsteady.canChange hchange,
    by rw [hfile]; rfl, rfl⟩
  rw [Volume.without, hremove]
  exact (erase_of_writeAt _ d n c).trans (hordered.erase_put hd hnone)

end Volume

/-! ## Bundles -/

namespace Bundle

open Volume

variable {w w₁ w' : World} {source dest path : Path} {files : List SourceFile}
  {x : Except StorageError Unit} {e : StorageError}

/-- An archive that is written where nothing was, and removed, leaves the world as it was. -/
theorem undone_writeArchive (hordered : w.volume.Ordered) (hunused : w.volume.Unused path)
    (h : w.perform (writeArchive files path).run = (x, w₁)) :
    { w₁ with volume := w₁.volume.without path } = w := by
  have hcases := writeArchive_cases files path w
  rw [h] at hcases
  obtain rfl | ⟨t, v₁, c, hcreate, rfl⟩ := hcases
  · exact congrArg (fun volume => ({ w₁ with volume } : World)) hunused.without
  · exact congrArg (fun volume => ({ w with volume } : World))
      (hunused.without_of_create hordered hcreate c)

/-- The name beside a destination under which its bundle is made is not in use. A destination
without a file name has none beside it. -/
def Free (w : World) (dest : Path) : Prop :=
  dest.fileName?.isSome → ∀ q, w.volume.Names (dest.beside (World.nonceDigits w.nonces)) q →
    w.volume.face? q = none

theorem Free.unused (h : Free w dest) :
    w.volume.Unused (dest.beside (World.nonceDigits w.nonces)) := by
  cases hname : dest.fileName? with
  | none =>
    rw [Path.beside, Path.withExtension_of_fileName?_eq_none hname]
    exact unused_of_fileName?_eq_none hname
  | some n => exact unused_of_names (h (Option.isSome_of_eq_some hname))

theorem Free.of_find (h : (w.volume.find .keep (dest.beside (World.nonceDigits w.nonces))).map
    (fun s => (w.volume.face? s.place).isNone) = .ok true) : Free w dest := by
  rintro - q ⟨s, hs, rfl⟩
  rw [hs] at h
  exact Option.isNone_iff_eq_none.mp (Except.ok.inj h)

/-- Only a nonce was taken if no bundle is made. -/
theorem undone_make (hordered : w.volume.Ordered) (hfree : Free w dest)
    (h : w.perform (make source dest).run = (.error e, w')) :
    w' = { w with nonces := w'.nonces } := by
  have hcourse := perform_make source dest w
  rw [h] at hcourse
  cases hcourse with
  | unlisted => rfl
  | unwritten _ hwrite =>
    rw [undone_writeArchive (w := { w with nonces := w.nonces + 1 }) hordered hfree.unused hwrite]
  | unmoved _ _ hwrite =>
    rw [undone_writeArchive (w := { w with nonces := w.nonces + 1 }) hordered hfree.unused hwrite]

end Bundle

/-- Only a nonce was taken if a request for a bundle fails. -/
theorem Folder.undone_download {f : Folder} {r : Resource} {w w' : World} {e : StorageError}
    (hordered : w.volume.Ordered) (hfree : Bundle.Free w (f.pathOf r.bundleKey))
    (h : w.perform (f.download r).run = (.error e, w')) : w' = { w with nonces := w'.nonces } := by
  rw [download, World.perform_bind_eq_error] at h
  obtain h | ⟨_, w₁, hcheck, h⟩ := h
  · obtain ⟨-, rfl⟩ := Prod.mk.inj h
    rfl
  obtain ⟨-, rfl⟩ := Prod.mk.inj hcheck
  rw [World.perform_bind_eq_error, perform_hasKey] at h
  obtain h | ⟨there, w₁, hkey, h⟩ := h
  · obtain ⟨-, rfl⟩ := Prod.mk.inj h
    rfl
  obtain ⟨-, rfl⟩ := Prod.mk.inj hkey
  split at h
  · exact absurd (Prod.mk.inj h).1 (by simp)
  rw [World.perform_bind_eq_error] at h
  have hsame : (w.perform (f.checkTree r.stem).run).2 = w := by
    obtain ⟨-, h⟩ | ⟨_, h⟩ := f.perform_checkTree r.stem w <;> rw [h]
  obtain h | ⟨_, w₁, htree, h⟩ := h
  · rw [h] at hsame
    exact hsame ▸ rfl
  · rw [htree] at hsame
    obtain rfl : w₁ = w := hsame
    rw [World.perform_bind_eq_error] at h
    obtain h | ⟨_, w₂, -, h⟩ := h
    · exact Bundle.undone_make hordered hfree h
    · exact absurd (Prod.mk.inj h).1 (by simp)

/-- **If no bundle is made then nothing has changed.** Whatever fails on the way, after the making
of a bundle and after a request for one the world is as it was, but for the nonce that was taken; so
the destination is as it was and no file is left beside it. The directories have to be in order, as
all calls keep them (`World.ordered_perform`). -/
theorem undone_of_error {w : World} (hordered : w.volume.Ordered) :
    (∀ source dest e w', Bundle.Free w dest →
      w.perform (Bundle.make source dest).run = (.error e, w') →
        w' = { w with nonces := w'.nonces }) ∧
    ∀ (f : Folder) (r : Resource) e w', Bundle.Free w (f.pathOf r.bundleKey) →
      w.perform (f.download r).run = (.error e, w') → w' = { w with nonces := w'.nonces } :=
  ⟨fun _ _ _ _ => Bundle.undone_make hordered, fun _ _ _ _ => Folder.undone_download hordered⟩

/-- A resource with a tree of two files. -/
def twoFileModel : Resource :=
  ⟨"arms", "grippers", "9f0c2c1e-6d5e-4b7a-8a43-0c8f5f0f8b11", 3⟩

/-- A folder `store` with the tree of the resource, of which `faulty` fails after one octet, and
a file beside the folder. -/
def unreadableTree : World :=
  .ofVolume ⟨.directory 0o755
    [(.ofText "old.zip" (by decide), .file 0o644 (.plain [0x32])),
     (.ofText "store" isName_store, .directory 0o755
       [(.ofText "arms" (by decide), .directory 0o755
         [(.ofText "grippers" (by decide), .directory 0o755
           [(.ofText "9f0c2c1e-6d5e-4b7a-8a43-0c8f5f0f8b11" (by decide), .directory 0o755
             [(.ofText "3" (by decide), .directory 0o755
               [(.ofText "data" (by decide), .file 0o644 (.plain [0x31])),
                (.ofText "faulty" (by decide), @Node.faulty [0x33])])])])])])], [], none⟩ ""

/-- The bundle would take the place of the file, or stand beside the tree. -/
theorem undone_of_error_unreadableTree :
    unreadableTree.volume.Ordered ∧
      (∃ w', Bundle.Free unreadableTree (.ofString "old.zip") ∧
        unreadableTree.perform (Bundle.make (.ofString "store/arms/grippers")
          (.ofString "old.zip")).run = (.error (.system
            (.compress "9f0c2c1e-6d5e-4b7a-8a43-0c8f5f0f8b11/3/faulty") .inputOutput), w') ∧
        w' = { unreadableTree with nonces := w'.nonces }) ∧
      ∃ w', Bundle.Free unreadableTree
          (Folder.pathOf ⟨.ofString "store"⟩ twoFileModel.bundleKey) ∧
        unreadableTree.perform (Folder.download ⟨.ofString "store"⟩ twoFileModel).run
          = (.error (.system (.compress "faulty") .inputOutput), w') ∧
        w' = { unreadableTree with nonces := w'.nonces } := by
  have hordered : unreadableTree.volume.Ordered := by decide +kernel
  have hfree : Bundle.Free unreadableTree (.ofString "old.zip") := .of_find (by decide +kernel)
  have hfree' : Bundle.Free unreadableTree
      (Folder.pathOf ⟨.ofString "store"⟩ twoFileModel.bundleKey) := .of_find (by decide +kernel)
  have hmake : (unreadableTree.perform (Bundle.make (.ofString "store/arms/grippers")
      (.ofString "old.zip")).run).1 = .error (.system
        (.compress "9f0c2c1e-6d5e-4b7a-8a43-0c8f5f0f8b11/3/faulty") .inputOutput) := by
    decide +kernel
  have hdownload : (unreadableTree.perform
      (Folder.download ⟨.ofString "store"⟩ twoFileModel).run).1
      = .error (.system (.compress "faulty") .inputOutput) := by decide +kernel
  obtain ⟨h, h'⟩ := undone_of_error hordered
  exact ⟨hordered, ⟨_, hfree, Prod.ext hmake rfl, h _ _ _ _ hfree (Prod.ext hmake rfl)⟩,
    _, hfree', Prod.ext hdownload rfl, h' _ _ _ _ hfree' (Prod.ext hdownload rfl)⟩

end Depot
