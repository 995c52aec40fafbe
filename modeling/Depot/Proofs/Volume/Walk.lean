import Depot.Proofs.Volume.Route
import Depot.Volume.Walk

/-!
# What a walk finds

The path of a file that a walk finds is the path that the walk started at, followed by the names
that lead to the file.

A walk of a directory finds every file below it that its names lead to (`exists_found_of_get?`),
and it finds the same after a file is removed to which nothing leads that it found
(`walk_of_remove`).
-/

namespace Depot

/-- A file that was found has the given path, with some names behind it. -/
def Found.Behind (names : List Name) (p : Path) (f : Found) : Prop :=
  ∃ more, f.names = names ++ more ∧ f.path = more.foldl Path.child p

theorem Found.Behind.self (names : List Name) (p : Path) : Behind names p ⟨names, p⟩ :=
  ⟨[], by simp⟩

theorem Found.Behind.of_child {names : List Name} {p : Path} {n : Name} {f : Found}
    (h : Behind (names ++ [n]) (p.child n) f) : Behind names p f := by
  obtain ⟨more, hnames, hpath⟩ := h
  exact ⟨n :: more, by simp [hnames], hpath⟩

theorem Path.steps_children (p : Path) (names : List Name) :
    (names.foldl child p).steps = p.steps ++ names.map .name := by
  induction names generalizing p with
  | nil => rw [List.foldl_nil, List.map_nil, List.append_nil]
  | cons n names ih =>
    rw [List.foldl_cons, ih, steps_child, List.append_assoc, List.map_cons, List.singleton_append]

namespace Volume

theorem walkEntries_cons_eq_ok {v : Volume} {names : List Name} {p : Path} {reached : Bool}
    {n : Name} {node : Node} {rest : List (Name × Node)} {fs : List Found} :
    v.walkEntries names p reached ((n, node) :: rest) = .ok fs ↔
      ∃ first others, v.walkNode (names ++ [n]) (p.child n) reached node = .ok first ∧
        v.walkEntries names p reached rest = .ok others ∧ fs = first ++ others := by
  simp only [walkEntries, bind_eq_ok, pure, Except.pure, Except.ok.injEq, eq_comm (b := fs)]
  simp

mutual

theorem behind_of_walkNode {v : Volume} {names : List Name} {p : Path} {reached : Bool} :
    ∀ {node : Node} {fs : List Found}, v.walkNode names p reached node = .ok fs →
      ∀ f ∈ fs, Found.Behind names p f
  | .file .., fs, h, f, hf | .faulty, fs, h, f, hf => by
    cases h
    exact List.mem_singleton.mp hf ▸ .self names p
  | .link _, fs, h, f, hf => by
    cases h
    split at hf
    · exact List.mem_singleton.mp hf ▸ .self names p
    · exact absurd hf List.not_mem_nil
  | .socket, fs, h, f, hf => by
    cases h
    exact absurd hf List.not_mem_nil
  | .directory mode entries, fs, h, f, hf => by
    rw [walkNode] at h
    split at h
    · exact absurd h (by simp)
    · exact behind_of_walkEntries h f hf

theorem behind_of_walkEntries {v : Volume} {names : List Name} {p : Path} {reached : Bool} :
    ∀ {entries : List (Name × Node)} {fs : List Found},
      v.walkEntries names p reached entries = .ok fs → ∀ f ∈ fs, Found.Behind names p f
  | [], fs, h, f, hf => by
    cases h
    exact absurd hf List.not_mem_nil
  | (n, node) :: rest, fs, h, f, hf => by
    obtain ⟨first, others, hfirst, hothers, rfl⟩ := walkEntries_cons_eq_ok.mp h
    rcases List.mem_append.mp hf with hf | hf
    · exact (behind_of_walkNode hfirst f hf).of_child
    · exact behind_of_walkEntries hothers f hf

end

/-- Every file that a walk finds is behind the path that the walk started at. -/
theorem behind_of_walk {v : Volume} {p : Path} {fs : List Found} (h : v.walk p = .ok fs) :
    ∀ f ∈ fs, Found.Behind [] p f := by
  unfold walk at h
  obtain ⟨⟨place, node⟩, -, h⟩ := bind_eq_ok.mp h
  cases node with
  | link target =>
    obtain ⟨⟨place, node⟩, -, h⟩ := bind_eq_ok.mp h
    simp only at h
    split at h
    · exact behind_of_walkNode h
    · cases h
      intro f hf
      split at hf
      · exact List.mem_singleton.mp hf ▸ .self [] p
      · exact absurd hf List.not_mem_nil
  | _ => exact behind_of_walkNode h

/-! ## Walks of directories -/

variable {v v' : Volume} {p : Path} {q : Place} {fs : List Found}

theorem exists_of_stat (h : v.stat p = .ok .directory) :
    ∃ q node, v.existing .follow p = .ok (q, node) ∧ node.isDirectory = true := by
  obtain ⟨⟨q, node⟩, hn, hk⟩ := bind_eq_ok.mp h
  refine ⟨q, node, hn, ?_⟩
  cases node with
  | directory => rfl
  | _ => exact absurd hk (by simp [pure, Except.pure, Node.kind])

/-- What is a directory stays one. -/
theorem Steady.stat_directory (h : Steady v v') (hd : v.stat p = .ok .directory) :
    v'.stat p = .ok .directory := by
  obtain ⟨q, node, hex, hnode⟩ := exists_of_stat hd
  obtain ⟨mode, hmode⟩ := isDirectory_iff.mp hnode
  have hface := h.directory q mode (face?_eq_some.mpr ⟨node, node?_of_existing hex, hmode⟩)
  obtain ⟨node', hnode', hmode'⟩ := face?_eq_some.mp hface
  have hkind : node'.kind = .directory := by
    cases node' <;> simp_all [Node.face, Node.kind]
  rw [stat, h.existing hex hnode']
  exact congrArg Except.ok hkind

/-- A walk starts with what its path leads to. -/
theorem exists_walkNode_of_walk (h : v.walk p = .ok fs) :
    ∃ q node, v.existing .follow p = .ok (q, node) ∧ v.walkNode [] p true node = .ok fs := by
  unfold walk at h
  obtain ⟨⟨q, node⟩, hp, h⟩ := bind_eq_ok.mp h
  cases ht : target? (some node) with
  | some target =>
    obtain rfl : node = .link target := by
      cases node <;> simp_all [target?]
    obtain ⟨⟨q', node'⟩, hp', h⟩ := bind_eq_ok.mp h
    refine ⟨q', node', hp', ?_⟩
    cases node' with
    | link target' =>
      have hfile : v.isFile p = false := by
        simp [isFile, stat, hp', bind, Except.bind, pure, Except.pure, Node.kind]
      rw [walkNode, hfile]
      exact h
    | _ => exact h
  | none =>
    refine ⟨q, node, leads_of_existing hp ht, ?_⟩
    cases node with
    | link target => exact absurd ht (by simp [target?])
    | _ => exact h

/-- A walk of a directory starts with its entries. -/
theorem walkNode_of_walk {node : Node} (hp : v.existing .follow p = .ok (q, node))
    (h : v.walk p = .ok fs) : v.walkNode [] p true node = .ok fs := by
  obtain ⟨q', node', hp', h⟩ := exists_walkNode_of_walk h
  obtain ⟨-, rfl⟩ := Prod.mk.inj (Except.ok.inj (hp'.symm.trans hp))
  exact h

/-- What a walk finds below a directory has a name. -/
theorem names_ne_nil_of_walkEntries {names : List Name} {reached : Bool}
    {entries : List (Name × Node)} (h : v.walkEntries names p reached entries = .ok fs) :
    ∀ f ∈ fs, f.names ≠ names := by
  induction entries generalizing fs with
  | nil =>
    cases h
    exact fun f hf => absurd hf List.not_mem_nil
  | cons e rest ih =>
    obtain ⟨n, node⟩ := e
    obtain ⟨first, others, hfirst, hothers, rfl⟩ := walkEntries_cons_eq_ok.mp h
    intro f hf
    rcases List.mem_append.mp hf with hf | hf
    · obtain ⟨more, hmore, -⟩ := behind_of_walkNode hfirst f hf
      rw [hmore]
      simp
    · exact ih hothers f hf

theorem names_ne_nil_of_walk {node : Node} (hd : node.isDirectory = true)
    (hp : v.existing .follow p = .ok (q, node)) (h : v.walk p = .ok fs) :
    ∀ f ∈ fs, f.names ≠ [] := by
  have hw := walkNode_of_walk hp h
  cases node with
  | directory mode entries =>
    rw [walkNode] at hw
    split at hw
    · exact absurd hw (by simp)
    · exact names_ne_nil_of_walkEntries hw
  | _ => exact absurd hd (by simp [Node.isDirectory])

theorem exists_of_walkEntries {names : List Name} {reached : Bool} {entries : List (Name × Node)}
    {n : Name} {child : Node} (h : v.walkEntries names p reached entries = .ok fs)
    (hn : entries.lookup n = some child) :
    ∃ first, v.walkNode (names ++ [n]) (p.child n) reached child = .ok first ∧ first ⊆ fs := by
  induction entries generalizing fs with
  | nil => exact absurd hn (by simp)
  | cons e rest ih =>
    obtain ⟨m, node⟩ := e
    obtain ⟨first, others, hfirst, hothers, rfl⟩ := walkEntries_cons_eq_ok.mp h
    rw [lookup_cons_if] at hn
    split at hn
    · next hm =>
      subst hm
      cases hn
      exact ⟨first, hfirst, List.subset_append_left _ _⟩
    · obtain ⟨found, hfound, hsub⟩ := ih hothers hn
      exact ⟨found, hfound, fun _ hf => List.mem_append_right _ (hsub hf)⟩

/-- A walk finds the file that names lead to. -/
theorem exists_found_of_get? {names rel : List Name} {reached : Bool} {node : Node} {mode : Mode}
    {c : Content} (h : v.walkNode names p reached node = .ok fs)
    (hrel : node.get? rel = some (.file mode c)) :
    ⟨names ++ rel, rel.foldl Path.child p⟩ ∈ fs := by
  induction rel generalizing names p reached node fs with
  | nil =>
    rw [Node.get?_nil] at hrel
    cases hrel
    cases h
    simp
  | cons n rel ih =>
    obtain ⟨mode', entries, child, rfl, hn, hchild⟩ := Node.get?_cons hrel
    rw [walkNode] at h
    split at h
    · exact absurd h (by simp)
    · obtain ⟨first, hfirst, hsub⟩ := exists_of_walkEntries h hn
      simpa using hsub (ih hfirst hchild)

/-! ## Walks while files are removed -/

theorem isFile_eq_true : v.isFile p = true ↔
    ∃ q node, v.existing .follow p = .ok (q, node) ∧ node.isFile = true := by
  unfold isFile stat
  cases h : v.existing .follow p with
  | error k => simp [bind, Except.bind]
  | ok r =>
    obtain ⟨q, node⟩ := r
    cases node <;> simp [bind, Except.bind, pure, Except.pure, Node.kind, Node.isFile]

theorem isFile_of_steady (hv : Steady v v') (hp : ∀ q, v.Leads p q → v'.face? q = v.face? q)
    (h : v.isFile p = true) : v'.isFile p = true := by
  obtain ⟨q, node, hn, hf⟩ := isFile_eq_true.mp h
  have hface : v'.face? q = some node.face :=
    (hp q ⟨node, hn⟩).trans (face?_eq_some.mpr ⟨node, node?_of_existing hn, rfl⟩)
  obtain ⟨node', hn', hsame⟩ := face?_eq_some.mp hface
  refine isFile_eq_true.mpr ⟨q, node', hv.existing hn hn', ?_⟩
  cases node <;> cases node' <;> simp_all [Node.face, Node.isFile]

mutual

theorem walkNode_congr {names : List Name} {reached : Bool} :
    ∀ {p : Path} {node : Node} {fs : List Found}, v.walkNode names p reached node = .ok fs →
      (∀ p, v.isFile p = false → v'.isFile p = false) →
      (∀ f ∈ fs, v.isFile f.path = true → v'.isFile f.path = true) →
        v'.walkNode names p reached node = .ok fs
  | _, .file .., _, h, _, _ | _, .faulty, _, h, _, _ | _, .socket, _, h, _, _ => h
  | p, .link _, fs, h, hfalse, htrue => by
    cases h
    cases hf : v.isFile p with
    | false => simp [walkNode, hfalse p hf]
    | true =>
      rw [hf] at htrue
      simp [walkNode, htrue _ (List.mem_singleton_self _) hf]
  | p, .directory mode entries, fs, h, hfalse, htrue => by
    rw [walkNode] at h ⊢
    split at h
    · next hk => exact absurd h (by simp)
    · next hk => exact walkEntries_congr h hfalse htrue

theorem walkEntries_congr {names : List Name} {reached : Bool} :
    ∀ {p : Path} {entries : List (Name × Node)} {fs : List Found},
      v.walkEntries names p reached entries = .ok fs →
      (∀ p, v.isFile p = false → v'.isFile p = false) →
      (∀ f ∈ fs, v.isFile f.path = true → v'.isFile f.path = true) →
        v'.walkEntries names p reached entries = .ok fs
  | _, [], _, h, _, _ => h
  | _, (n, node) :: rest, fs, h, hfalse, htrue => by
    obtain ⟨first, others, hfirst, hothers, rfl⟩ := walkEntries_cons_eq_ok.mp h
    exact walkEntries_cons_eq_ok.mpr ⟨first, others,
      walkNode_congr hfirst hfalse fun f hf => htrue f (List.mem_append_left _ hf),
      walkEntries_congr hothers hfalse fun f hf => htrue f (List.mem_append_right _ hf), rfl⟩

end

/-- What is a file after an entry was removed was one before. -/
theorem isFile_of_vacated {b : Place} (hputs : Puts v b none v') (hback : Steady v' v)
    (h : v'.isFile p = true) : v.isFile p = true := by
  refine isFile_of_steady hback ?_ h
  rintro r ⟨x, hx⟩
  refine hputs.symm.face?_of_ne r fun he => ?_
  have hnone := hputs.face?_self
  rw [← he, face?_eq_some.mpr ⟨x, node?_of_existing hx, rfl⟩] at hnone
  exact absurd hnone (by simp)

/-- A node's walk finds the same after an entry was removed to which nothing leads that it found. -/
theorem walkNode_vacated {b : Place} {names : List Name} {reached : Bool} {node : Node}
    (hputs : Puts v b none v') (hv : Steady v v') (hback : Steady v' v)
    (h : v.walkNode names p reached node = .ok fs)
    (hout : ∀ f ∈ fs, ∃ r, v.Leads f.path r ∧ r ≠ b) :
    v'.walkNode names p reached node = .ok fs := by
  refine walkNode_congr h (fun p hf => ?_) fun f hf ht => ?_
  · exact Bool.eq_false_iff.mpr fun ht => Bool.eq_false_iff.mp hf (isFile_of_vacated hputs hback ht)
  · refine isFile_of_steady hv (fun r hr => hputs.face?_of_ne r ?_) ht
    obtain ⟨r', hr', hne⟩ := hout f hf
    exact hr.inj hr' ▸ hne

/-- A file below a place is a file below the node there. -/
theorem get?_of_face? {last : Last} {node : Node} {rel : List Name} {mode : Mode} {c : Content}
    (hp : v.existing last p = .ok (q, node)) (hface : v.face? (q ++ rel) = some (.file mode c)) :
    node.get? rel = some (.file mode c) := by
  have hfile := node?_of_file hface
  rw [node?, Node.get?_append, show v.root.get? q = _ from node?_of_existing hp] at hfile
  exact hfile

/-- A file below a directory is found by a walk, by a path that leads to nothing else. -/
theorem exists_found_at {node : Node} {rel : List Name} {mode : Mode} {c : Content}
    (hp : v.existing .follow p = .ok (q, node)) (h : v.walkNode [] p true node = .ok fs)
    (hface : v.face? (q ++ rel) = some (.file mode c)) :
    ∃ f ∈ fs, ∀ r, v.Leads f.path r → r = q ++ rel := by
  refine ⟨_, exists_found_of_get? h (get?_of_face? hp hface), ?_⟩
  intro r hr
  exact place_of_leads_children ⟨_, hp⟩ (fun _ _ => face?_ne_link hface (by simp)) hr

/-- A walk of a directory finds what it found after a file was removed to which nothing leads that
it found. -/
theorem walk_of_remove {path : Path} {d : Place} {n : Name} {mode : Mode} {c : Content}
    {node : Node} {fs' : List Found}
    (hfile : v.find .keep path = .ok ⟨d, some n, some (.file mode c), false⟩)
    (hchange : v.canChange d = true) (hv' : v.modify d (Node.erase n) = v')
    (hd : node.isDirectory = true) (hp : v'.existing .follow p = .ok (q, node))
    (h : v.walk p = .ok fs) (h' : v'.walk p = .ok fs')
    (hout : ∀ f ∈ fs, ∃ r, v.Leads f.path r ∧ r ≠ d ++ [n]) : fs' = fs := by
  have hputs : Puts v (d ++ [n]) none v' := hv' ▸ puts_remove hfile hchange rfl
  have hb : v.node? (d ++ [n]) = some (.file mode c) := (sound_of_find hfile).get?_place rfl
  have hface : v.face? (d ++ [n]) = some (.file mode c) := face?_eq_some.mpr ⟨_, hb, rfl⟩
  have hfaces : ∀ old, v.face? (d ++ [n]) = some old → old.EndsHere := by
    intro old ho
    exact Option.some.inj (hface.symm.trans ho) ▸ trivial
  have hsteady : Steady v v' := hputs.steady hfaces fun new hn => absurd hn (by simp)
  have hsteady' : Steady v' v := hputs.steady_symm hfaces fun new hn => absurd hn (by simp)
  -- the walk starts at the same place
  obtain ⟨m, hm⟩ := isDirectory_iff.mp hd
  have hqd : v'.face? q = some (.directory m) :=
    face?_eq_some.mpr ⟨node, node?_of_existing hp, hm⟩
  obtain ⟨entries, hq⟩ := node?_of_directory (hsteady'.directory q m hqd)
  have hp' := hsteady'.existing hp hq
  have hwalk := walkNode_of_walk hp' h
  by_cases hpre : q <+: d ++ [n]
  · -- else the walk had found the file
    obtain ⟨rel, hrel⟩ := hpre
    obtain ⟨f, hf, hat⟩ := exists_found_at hp' hwalk (hrel ▸ hface)
    obtain ⟨r, hr, hne⟩ := hout f hf
    exact absurd ((hat r hr).trans hrel) hne
  · obtain ⟨m', hchanged⟩ := canChange_eq_true hchange
    have hsame : v'.node? q = v.node? q :=
      hv' ▸ node?_erase hchanged hb (fun _ _ => rfl) hpre
    obtain rfl : node = .directory m entries :=
      Option.some.inj ((node?_of_existing hp).symm.trans (hsame.trans hq))
    have hkept := walkNode_vacated hputs hsteady hsteady' hwalk hout
    exact Except.ok.inj ((walkNode_of_walk hp h').symm.trans hkept)

end Volume

end Depot
