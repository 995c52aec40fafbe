import Depot.Proofs.Volume.Order
import Depot.Proofs.Volume.Walk

/-!
# A walk is complete, exact and in order

A walk of an ordered tree finds what can be reached in it through directories alone and is a file,
or a link that leads to a file (`mem_walkNode`), and nothing else. What it finds comes in the order
of the names that lead there, name by name (`pairwise_walkNode`): the order of siblings carries over
to all that is below them, whatever follows their names.

The walk is the one of `collect_files`.
-/

namespace Depot.Volume

/-- What a walk lists when it comes to a node at a path: a file, or a link if the path leads to a
file. -/
def Lists (v : Volume) (p : Path) : Node → Prop
  | .file .. | .faulty => True
  | .link _ => v.isFile p = true
  | .directory .. | .socket => False

/-- Names lead from a node at a path, through directories alone, to what a walk lists. -/
def Finds (v : Volume) (p : Path) (node : Node) (names : List Name) : Prop :=
  ∃ x, node.get? names = some x ∧ v.Lists (names.foldl Path.child p) x

variable {v : Volume} {names : List Name} {p : Path} {reached : Bool}

/-- What can be found in a directory can be found in one of its entries. -/
theorem finds_directory {mode : Mode} {entries : List (Name × Node)} {rel : List Name} :
    v.Finds p (.directory mode entries) rel ↔
      ∃ n rest x, rel = n :: rest ∧ entries.lookup n = some x ∧ v.Finds (p.child n) x rest := by
  cases rel with
  | nil =>
    refine iff_of_false ?_ nofun
    rintro ⟨x, hx, hlist⟩
    obtain rfl := Option.some.inj hx
    exact hlist
  | cons n rest =>
    constructor
    · rintro ⟨y, hy, hlist⟩
      obtain ⟨x, hx, hrest⟩ := Option.bind_eq_some_iff.mp hy
      exact ⟨n, rest, x, rfl, hx, y, hrest, hlist⟩
    · rintro ⟨m, rest', x, he, hx, y, hrest, hlist⟩
      obtain ⟨rfl, rfl⟩ := List.cons.inj he
      exact ⟨y, Option.bind_eq_some_iff.mpr ⟨x, hx, hrest⟩, hlist⟩

/-- What is no directory can be found alone. -/
theorem exists_finds_iff {node : Node} (hd : node.isDirectory = false) {f : Found} :
    (∃ rel, v.Finds p node rel ∧ f = ⟨names ++ rel, rel.foldl Path.child p⟩) ↔
      v.Lists p node ∧ f = ⟨names, p⟩ := by
  constructor
  · rintro ⟨rel, ⟨x, hx, hlist⟩, rfl⟩
    cases rel with
    | nil =>
      rw [Node.get?_nil] at hx
      exact ⟨Option.some.inj hx ▸ hlist, by rw [List.append_nil, List.foldl_nil]⟩
    | cons n rest => exact absurd (hx.symm.trans (get?_eq_none_of_isDirectory hd n rest)) nofun
  · rintro ⟨hlist, rfl⟩
    exact ⟨[], ⟨node, node.get?_nil, hlist⟩, by rw [List.append_nil, List.foldl_nil]⟩

/-! ## What is found -/

mutual

/-- A walk of an ordered tree finds just what can be found there. -/
theorem mem_walkNode : ∀ {names : List Name} {p : Path} {reached : Bool} {node : Node}
    {fs : List Found}, node.isOrdered = true → v.walkNode names p reached node = .ok fs →
      ∀ f, f ∈ fs ↔ ∃ rel, v.Finds p node rel ∧ f = ⟨names ++ rel, rel.foldl Path.child p⟩
  | names, p, _, .file .., fs, _, h, f | names, p, _, .faulty, fs, _, h, f => by
    cases h
    rw [exists_finds_iff rfl, List.mem_singleton]
    exact (and_iff_right trivial).symm
  | names, p, _, .link target, fs, _, h, f => by
    cases h
    rw [exists_finds_iff rfl]
    cases hf : v.isFile p <;> simp [Lists, hf]
  | names, p, _, .socket, fs, _, h, f => by
    cases h
    rw [exists_finds_iff rfl]
    exact iff_of_false List.not_mem_nil fun hlist => hlist.1
  | names, p, _, .directory mode entries, fs, hord, h, f => by
    rw [walkNode] at h
    split at h
    · exact nomatch h
    · rw [mem_walkEntries hord h f]
      constructor
      · rintro ⟨n, x, rest, hx, hfinds, rfl⟩
        have hlookup := (Node.lookup_eq_some_iff_mem hord).mpr hx
        exact ⟨n :: rest, finds_directory.mpr ⟨n, rest, x, rfl, hlookup, hfinds⟩, rfl⟩
      · rintro ⟨rel, hfinds, rfl⟩
        obtain ⟨n, rest, x, rfl, hlookup, hfinds⟩ := finds_directory.mp hfinds
        exact ⟨n, x, rest, Node.mem_of_lookup hlookup, hfinds, rfl⟩

theorem mem_walkEntries : ∀ {names : List Name} {p : Path} {reached : Bool}
    {entries : List (Name × Node)} {fs : List Found}, Node.areOrdered entries = true →
      v.walkEntries names p reached entries = .ok fs →
      ∀ f, f ∈ fs ↔ ∃ n x rest, (n, x) ∈ entries ∧ v.Finds (p.child n) x rest ∧
        f = ⟨names ++ n :: rest, (n :: rest).foldl Path.child p⟩
  | _, _, _, [], _, _, h, f => by
    cases h
    simp
  | names, p, reached, (n, x) :: entries, fs, hord, h, f => by
    obtain ⟨first, others, hfirst, hothers, rfl⟩ := walkEntries_cons_eq_ok.mp h
    obtain ⟨-, hx, hrest⟩ := Node.areOrdered_cons.mp hord
    rw [List.mem_append, mem_walkNode hx hfirst f, mem_walkEntries hrest hothers f]
    constructor
    · rintro (⟨rel, hfinds, rfl⟩ | ⟨m, y, rel, hy, hfinds, rfl⟩)
      · exact ⟨n, x, rel, List.mem_cons_self, hfinds, by simp⟩
      · exact ⟨m, y, rel, List.mem_cons_of_mem _ hy, hfinds, rfl⟩
    · rintro ⟨m, y, rel, hy, hfinds, rfl⟩
      rcases List.mem_cons.mp hy with he | hy
      · obtain ⟨rfl, rfl⟩ := Prod.mk.inj he
        exact .inl ⟨rel, hfinds, by simp⟩
      · exact .inr ⟨m, y, rel, hy, hfinds, rfl⟩

end

/-- The path of what a walk finds leads nowhere else than to what was there, while directories and
links stay. -/
theorem face?_of_found {v' : Volume} {q : Place} {fs : List Found} {f : Found} (hv : v.Ordered)
    (hsteady : Steady v v') (h : v.walk p = .ok fs) (hf : f ∈ fs) (hq : v'.Leads f.path q) :
    ∃ fc, v.face? q = some fc := by
  obtain ⟨top, node, htop, hwalk⟩ := exists_walkNode_of_walk h
  obtain ⟨rel, ⟨x, hx, hlist⟩, rfl⟩ :=
    (mem_walkNode (hv.node? (node?_of_existing htop)) hwalk f).mp hf
  have hface : v.face? (top ++ rel) = some x.face := by
    refine face?_eq_some.mpr ⟨x, ?_, rfl⟩
    rw [node?, Node.get?_append, show v.root.get? top = _ from node?_of_existing htop]
    exact hx
  cases hlink : target? (some x) with
  | some target =>
    obtain rfl : x = .link target := by cases x <;> simp_all [target?]
    obtain ⟨r, y, hy, -⟩ := isFile_eq_true.mp hlist
    obtain rfl := hsteady.place_of_leads ⟨y, hy⟩ hq
    exact ⟨_, face?_eq_some.mpr ⟨y, node?_of_existing hy, rfl⟩⟩
  | none =>
    have hnolink : ∀ target, x.face ≠ .link target := by
      intro target ht
      cases x <;> simp_all [Node.face, target?]
    refine ⟨x.face, ?_⟩
    cases rel with
    | nil =>
      rw [List.append_nil] at hface
      exact hsteady.place_of_leads ⟨node, htop⟩ hq ▸ hface
    | cons n rest =>
      -- the walk has started at a directory, which stays
      obtain ⟨mode, hd⟩ := exists_directory_of_face? hface
      have htop' := Leads.steady ⟨node, htop⟩ hsteady (hsteady.directory top mode hd)
      rw [place_of_leads_children htop' (fun r target hr => ?_) hq]
      · exact hface
      · rw [Ne, hsteady.link]
        exact face?_ne_link hface hnolink hr

/-! ## In which order -/

/-- Names behind one name come before names behind a later one. -/
theorem lt_of_before {n m : Name} (h : n.before m = true) (names more more' : List Name) :
    (names ++ n :: more).map Name.bytes < (names ++ m :: more').map Name.bytes := by
  rw [List.map_append, List.map_append]
  exact List.append_left_lt (List.cons_lt_cons_iff.mpr (.inl (Name.before_iff.mp h)))

mutual

/-- What a walk of an ordered tree finds is in the order of the names that lead there. -/
theorem pairwise_walkNode : ∀ {names : List Name} {p : Path} {reached : Bool} {node : Node}
    {fs : List Found}, node.isOrdered = true → v.walkNode names p reached node = .ok fs →
      fs.Pairwise fun f g => f.names.map Name.bytes < g.names.map Name.bytes
  | _, _, _, .file .., _, _, h | _, _, _, .faulty, _, _, h => by
    cases h
    exact List.pairwise_singleton _ _
  | _, p, _, .link _, _, _, h => by
    cases h
    split
    · exact List.pairwise_singleton _ _
    · exact .nil
  | _, _, _, .socket, _, _, h => by
    cases h
    exact .nil
  | _, _, _, .directory mode entries, _, hord, h => by
    rw [walkNode] at h
    split at h
    · exact nomatch h
    · exact pairwise_walkEntries hord h

theorem pairwise_walkEntries : ∀ {names : List Name} {p : Path} {reached : Bool}
    {entries : List (Name × Node)} {fs : List Found}, Node.areOrdered entries = true →
      v.walkEntries names p reached entries = .ok fs →
      fs.Pairwise fun f g => f.names.map Name.bytes < g.names.map Name.bytes
  | _, _, _, [], _, _, h => by
    cases h
    exact .nil
  | names, p, reached, (n, x) :: entries, fs, hord, h => by
    obtain ⟨first, others, hfirst, hothers, rfl⟩ := walkEntries_cons_eq_ok.mp h
    obtain ⟨hbefore, hx, hrest⟩ := Node.areOrdered_cons.mp hord
    refine List.pairwise_append.mpr
      ⟨pairwise_walkNode hx hfirst, pairwise_walkEntries hrest hothers, fun f hf g hg => ?_⟩
    -- one is behind the first name, the other behind a later one
    obtain ⟨more, hmore, -⟩ := behind_of_walkNode hfirst f hf
    obtain ⟨m, y, more', hy, -, rfl⟩ := (mem_walkEntries hrest hothers g).mp hg
    rw [hmore, List.append_assoc]
    exact lt_of_before (hbefore _ hy) names more more'

end

end Depot.Volume
