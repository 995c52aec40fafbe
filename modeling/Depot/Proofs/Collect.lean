import Depot.Proofs.Source
import Depot.Proofs.Volume.Above
import Depot.Proofs.Volume.Survey
import Mathlib.Data.List.Nodup

/-!
# The files of a folder

The files that are collected from a folder are those that it holds (`Volume.Holds`): files, and
links that lead to a file, with nothing but directories on the way. Each comes once, under the path
and the key that its names spell, in the order of these names (`collect_survey`). This is not the
order of the keys: a name and all that is below it come before any longer name, as `a/b` comes
before `a.txt`.

This is `collect_files`. Out of scope: a folder that changes while it is walked.
-/

namespace Depot

/-! ## Paths of entries -/

namespace Path

/-- What is joined says what it says behind the path, if there is one. -/
theorem components_join {p q : Path} (hp : p.bytes ≠ []) (hq : q.isAbsolute = false) :
    (p.join q).components = p.components ++ q.pieces.filterMap step? := by
  obtain ⟨first, rest, rest', hpieces, htrim, hjoin⟩ := exists_pieces_join p hp hq
  have hlead : (p.join q).leading first = p.leading first := by
    rw [leading, leading, isAbsolute_join hq]
  have hrest : rest'.filterMap step? = rest.filterMap step? := by
    rw [← filterMap_trimEnd rest', ← htrim, filterMap_trimEnd]
  rw [components_eq hpieces, components_eq hjoin, hlead, List.filterMap_append, hrest,
    List.append_assoc]

theorem components_children {p : Path} (hp : p.bytes ≠ []) (names : List Name) :
    (names.foldl child p).components = p.components ++ names.map .name := by
  induction names generalizing p with
  | nil => rw [List.foldl_nil, List.map_nil, List.append_nil]
  | cons n names ih =>
    have hne : (p.child n).bytes ≠ [] := bytes_children_ne_nil hp [n]
    have hname : pieces ⟨n.bytes⟩ = [n.bytes] := Text.splitOn_of_not_mem slash n.ordinary.2.2.2
    rw [List.foldl_cons, ih hne, child, components_join hp (isAbsolute_name n), hname,
      List.append_assoc]
    simp

/-- Names that lead from one path to one path are the same. -/
theorem children_injective {p : Path} (hp : p.bytes ≠ []) :
    Function.Injective fun names : List Name => names.foldl child p := by
  intro names names' he
  have hcomponents := congrArg components he
  dsimp only at hcomponents
  rw [components_children hp, components_children hp] at hcomponents
  exact List.map_injective_iff.mpr (fun _ _ => Component.name.inj)
    (List.append_cancel_left hcomponents)

end Path

/-! ## What a folder holds -/

namespace Volume

/-- Names lead from a folder, through directories alone, to a file, or to a link by which their path
leads to a file. -/
inductive Holds (v : Volume) (dir : Path) (names : List Name) : Prop where
  | file {top : Place} {node : Node} (htop : v.Leads dir top)
      (hnode : v.node? (top ++ names) = some node) (hfile : node.isFile = true) :
      Holds v dir names
  | link {top q : Place} {target : Path} {node : Node} (htop : v.Leads dir top)
      (hlink : v.node? (top ++ names) = some (.link target))
      (htarget : v.existing .follow (names.foldl Path.child dir) = .ok (q, node))
      (hfile : node.isFile = true) : Holds v dir names

/-- What a folder holds is what can be found in it. -/
theorem holds_iff {v : Volume} {dir : Path} {top : Place} {node : Node} {names : List Name}
    (h : v.existing .follow dir = .ok (top, node)) :
    v.Holds dir names ↔ v.Finds dir node names := by
  have hbelow : v.node? (top ++ names) = node.get? names := by
    rw [node?, Node.get?_append, show v.root.get? top = _ from node?_of_existing h]
    rfl
  constructor
  · rintro (@⟨_, x, htop, hx, hfile⟩ | ⟨htop, hlink, htarget, hfile⟩)
    · obtain rfl := htop.inj ⟨node, h⟩
      refine ⟨x, hbelow.symm.trans hx, ?_⟩
      cases x with
      | file mode content => trivial
      | faulty => trivial
      | _ => exact absurd hfile (by simp [Node.isFile])
    · obtain rfl := htop.inj ⟨node, h⟩
      exact ⟨_, hbelow.symm.trans hlink, isFile_eq_true.mpr ⟨_, _, htarget, hfile⟩⟩
  · rintro ⟨x, hx, hlist⟩
    rw [← hbelow] at hx
    cases x with
    | file mode content => exact .file ⟨node, h⟩ hx rfl
    | faulty => exact .file ⟨node, h⟩ hx rfl
    | link target =>
      obtain ⟨q, y, hy, hfile⟩ := isFile_eq_true.mp hlist
      exact .link ⟨node, h⟩ hx hy hfile
    | directory mode entries => exact hlist.elim
    | socket => exact hlist.elim

/-- What a folder holds has a name. -/
theorem Holds.ne_nil {v : Volume} {dir : Path} {names : List Name}
    (hdir : v.stat dir = .ok .directory) (h : v.Holds dir names) : names ≠ [] := by
  obtain ⟨top, node, hex, hnode⟩ := exists_of_stat hdir
  obtain ⟨x, hx, hlist⟩ := (holds_iff hex).mp h
  rintro rfl
  rw [Node.get?_nil] at hx
  obtain rfl := Option.some.inj hx
  cases node with
  | directory mode entries => exact hlist
  | _ => exact nomatch hnode

end Volume

/-! ## What is collected -/

/-- The file of a folder to which names lead. -/
def SourceFile.below (dir : Path) (names : List Name) : SourceFile :=
  ⟨Resource.relativeKey names, names.foldl Path.child dir⟩

theorem nodup_of_pairwise {rels : List (List Name)}
    (h : rels.Pairwise fun a b => a.map Name.bytes < b.map Name.bytes) : rels.Nodup := by
  refine List.Pairwise.imp (fun {a b} hlt he => ?_) h
  exact List.lt_irrefl (a.map Name.bytes) (he ▸ hlt)

variable {w w' : World} {dir : Path} {files : List SourceFile}

/-- What is collected is listed by the names of what a walk finds. -/
theorem exists_names_of_survey (hordered : w.volume.Ordered)
    (hdir : w.volume.stat dir = .ok .directory)
    (h : w.perform (collect dir).run = (.ok files, w')) :
    w' = w ∧ dir.bytes ≠ [] ∧ ∃ rels : List (List Name), files = rels.map (SourceFile.below dir) ∧
      (rels.Pairwise fun a b => a.map Name.bytes < b.map Name.bytes) ∧
      ∀ names, names ∈ rels ↔ w.volume.Holds dir names := by
  obtain ⟨⟨found, hwalk, rfl⟩, rfl⟩ := collect_eq_ok.mp h
  obtain ⟨top, node, hex, hd⟩ := Volume.exists_of_stat hdir
  have hwalked := Volume.walkNode_of_walk hex hwalk
  have hnode : node.isOrdered = true := hordered.node? (Volume.node?_of_existing hex)
  have hfound := Volume.mem_walkNode hnode hwalked
  have hpath : ∀ f ∈ found, SourceFile.ofFound f = .below dir f.names := by
    intro f hf
    obtain ⟨rel, -, rfl⟩ := (hfound f).mp hf
    rfl
  refine ⟨rfl, Volume.Leads.bytes_ne_nil ⟨node, hex⟩, found.map Found.names, ?_, ?_, ?_⟩
  · rw [List.map_map]
    exact List.map_congr_left hpath
  · exact List.pairwise_map.mpr (Volume.pairwise_walkNode hnode hwalked)
  · intro names
    rw [Volume.holds_iff hex, List.mem_map]
    constructor
    · rintro ⟨f, hf, rfl⟩
      obtain ⟨rel, hfinds, rfl⟩ := (hfound f).mp hf
      exact hfinds
    · exact fun hfinds => ⟨_, (hfound _).mpr ⟨names, hfinds, rfl⟩, rfl⟩

/-- **The files that are collected from a folder are those that the folder holds, each once, in the
order of the names that lead to them.** Names are in the order of their octets and lists of names in
the order of the first difference; a file has for its key the names, as text, and for its path the
path of the folder followed by them. -/
theorem collect_survey (hordered : w.volume.Ordered) (hdir : w.volume.stat dir = .ok .directory)
    (h : w.perform (collect dir).run = (.ok files, w')) :
    w' = w ∧ (files.map SourceFile.path).Nodup ∧
      ∃ rels : List (List Name),
        files = rels.map (fun names => ⟨Resource.relativeKey names, names.foldl Path.child dir⟩) ∧
        (∀ names ∈ rels,
          (names.foldl Path.child dir).components = dir.components ++ names.map .name) ∧
        (rels.Pairwise fun a b => a.map Name.bytes < b.map Name.bytes) ∧
        ∀ names, names ∈ rels ↔ w.volume.Holds dir names := by
  obtain ⟨hw, hne, rels, rfl, hsorted, hholds⟩ := exists_names_of_survey hordered hdir h
  refine ⟨hw, ?_, rels, rfl, fun names _ => Path.components_children hne names, hsorted, hholds⟩
  rw [List.map_map]
  exact List.Nodup.map (Path.children_injective hne) (nodup_of_pairwise hsorted)

/-- A folder with a file below a directory, a file of which the name begins as that of the
directory, a socket, and links: to nothing, to itself, to the directory and to the file in it. -/
def linksAndSocket : World :=
  .ofVolume ⟨.directory 0o755
    [(.ofText "src" isName_src, .directory 0o755
       [(.ofText "broken" (by decide), .link (.ofString "nowhere")),
        (.ofText "dir" (by decide), .directory 0o755
         [(.ofText "file" (by decide), .file 0o644 (.plain [0x31]))]),
        (.ofText "dir.txt" (by decide), .file 0o644 (.plain [0x32])),
        (.ofText "loop" (by decide), .link (.ofString "loop")),
        (.ofText "socket" (by decide), .socket),
        (.ofText "to-dir" (by decide), .link (.ofString "dir")),
        (.ofText "to-file" (by decide), .link (.ofString "dir/file"))]),
     (.ofText "to-src" (by decide), .link (.ofString "src"))], [], none⟩ ""

/-- The names of what the folder holds, which a link leads to. -/
def listedNames : List (List Name) :=
  [[.ofText "dir" (by decide), .ofText "file" (by decide)], [.ofText "dir.txt" (by decide)],
    [.ofText "to-file" (by decide)]]

theorem collect_survey_linksAndSocket :
    linksAndSocket.volume.Ordered ∧
      linksAndSocket.volume.stat (.ofString "to-src") = .ok .directory ∧
      linksAndSocket.perform (collect (.ofString "to-src")).run
        = (.ok [⟨"dir/file", .ofString "to-src/dir/file"⟩, ⟨"dir.txt", .ofString "to-src/dir.txt"⟩,
            ⟨"to-file", .ofString "to-src/to-file"⟩], linksAndSocket) ∧
      ∀ names, names ∈ listedNames ↔ linksAndSocket.volume.Holds (.ofString "to-src") names := by
  have hordered : linksAndSocket.volume.Ordered := by decide +kernel
  have hdir : linksAndSocket.volume.stat (.ofString "to-src") = .ok .directory := by decide +kernel
  have hcollect : linksAndSocket.perform (collect (.ofString "to-src")).run
      = (.ok (listedNames.map (.below (.ofString "to-src"))), linksAndSocket) :=
    Prod.ext (by decide +kernel) rfl
  obtain ⟨-, -, rels, hrels, -, -, hholds⟩ := collect_survey hordered hdir hcollect
  obtain rfl : listedNames = rels :=
    List.map_injective_iff.mpr (fun _ _ he => Path.children_injective (by decide)
      (congrArg SourceFile.path he)) hrels
  exact ⟨hordered, hdir, hcollect.trans (congrArg (Prod.mk · linksAndSocket) (by decide +kernel)),
    hholds⟩

end Depot
