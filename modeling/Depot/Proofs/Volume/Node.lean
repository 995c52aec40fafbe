import Depot.Proofs.Lookup
import Depot.Volume.Node
import Mathlib.Data.List.Infix

/-!
# Volumes place by place

What a volume holds is read off its `face?`: at each place a file with its permissions and content,
a directory with its permissions, a link with its target, or nothing. The entries of a directory are
not part of its face; they are the faces one name further.

Every change of a volume that succeeds changes the face at one place (`Volume.Puts`):

* `puts_entry`: an entry of a directory, such as a new one, which is a file, a link or an empty
  directory (`puts_put`), be it in place of one that is no directory (`puts_replace`), or one that
  is removed and is no directory (`puts_erase`),
* `puts_modify`: a node that is no directory and does not become one, such as a file that is
  written to.
-/

namespace Depot

theorem bind_eq_ok {ε α β : Type} {x : Except ε α} {f : α → Except ε β} {b : β} :
    (x >>= f) = .ok b ↔ ∃ a, x = .ok a ∧ f a = .ok b := by
  cases x <;> simp [bind, Except.bind]

/-- What a node is, apart from what is below it. -/
inductive Face where
  | file (mode : Mode) (content : Content)
  | directory (mode : Mode)
  | link (target : Path)
  | socket
  | faulty (given : Bytes)

/-- Whether a lookup that comes here ends here: what is neither a directory nor a link. -/
def Face.EndsHere : Face → Prop
  | .directory _ | .link _ => False
  | .file .. | .socket | .faulty _ => True

namespace Node

/-- What a node is, apart from what is below it. -/
def face : Node → Face
  | .file mode content => .file mode content
  | .directory mode _ => .directory mode
  | .link target => .link target
  | .socket => .socket
  | @faulty given => .faulty given

/-- The face at a place below. -/
def face? (node : Node) (p : Place) : Option Face :=
  (node.get? p).map face

/-! ## Places -/

@[simp] theorem get?_nil (node : Node) : node.get? [] = some node := by
  cases node <;> rfl

theorem get?_append (node : Node) (p q : Place) :
    node.get? (p ++ q) = (node.get? p).bind fun child => child.get? q := by
  induction p generalizing node with
  | nil => simp
  | cons n p ih =>
    cases node with
    | directory mode entries =>
      simp only [List.cons_append, get?]
      cases entries.lookup n with
      | none => rfl
      | some child => exact ih child
    | _ => rfl

theorem get?_cons {node : Node} {n : Name} {p : Place} {child : Node}
    (h : node.get? (n :: p) = some child) :
    ∃ mode entries next, node = .directory mode entries ∧ entries.lookup n = some next ∧
      next.get? p = some child := by
  cases node with
  | directory mode entries =>
    obtain ⟨next, hn, hc⟩ := Option.bind_eq_some_iff.mp h
    exact ⟨mode, entries, next, rfl, hn, hc⟩
  | _ => exact absurd h (by simp [get?])

/-- What is below a place that is no directory is nothing. -/
theorem get?_eq_none_of_face {node : Node} (h : ∀ mode, node.face ≠ .directory mode) (n : Name)
    (p : Place) : node.get? (n :: p) = none := by
  cases node with
  | directory mode entries => exact absurd rfl (h mode)
  | _ => rfl

theorem get?_eq_none_append {node : Node} {p : Place} (h : node.get? p = none) (q : Place) :
    node.get? (p ++ q) = none := by
  rw [get?_append, h]
  rfl

theorem face?_eq_none {node : Node} {p : Place} : node.face? p = none ↔ node.get? p = none :=
  Option.map_eq_none_iff

/-! ## Entries -/

theorem lookup_insertEntry (n m : Name) (x : Node) (entries : List (Name × Node)) :
    (insertEntry n x entries).lookup m = if m = n then some x else entries.lookup m := by
  induction entries with
  | nil => rw [insertEntry, lookup_cons_if]
  | cons e entries ih =>
    obtain ⟨k, y⟩ := e
    rw [insertEntry]
    split
    · next hk =>
      subst hk
      rw [lookup_cons_if, lookup_cons_if]
      split <;> rfl
    · next hk =>
      split
      · rw [lookup_cons_if]
      · rw [lookup_cons_if, ih, lookup_cons_if]
        by_cases hm : m = k
        · simp [hm, Ne.symm hk]
        · simp [hm]

theorem lookup_filter_name (n m : Name) (entries : List (Name × Node)) :
    (entries.filter fun e => e.1 ≠ n).lookup m = if m = n then none else entries.lookup m := by
  rw [← lookup_filter_ne]
  congr 2
  funext e
  exact decide_not.trans (congrArg _ (beq_eq_decide e.1 n).symm)

/-! ## Changes -/

/-- Below a place that is changed stands what is below the changed node. -/
theorem get?_modify_append (f : Node → Node) (node : Node) (p q : Place) :
    (node.modify f p).get? (p ++ q) = (node.get? p).bind fun child => (f child).get? q := by
  induction p generalizing node with
  | nil => simp [modify]
  | cons n p ih =>
    cases node with
    | directory mode entries =>
      simp only [List.cons_append, modify, get?, lookup_map_if, if_pos]
      cases entries.lookup n with
      | none => rfl
      | some child => exact ih child
    | _ => rfl

/-- Elsewhere everything looks as before. -/
theorem face?_modify_of_not_prefix (f : Node → Node) (node : Node) {p q : Place}
    (h : ¬ p <+: q) : (node.modify f p).face? q = node.face? q := by
  induction p generalizing node q with
  | nil => exact absurd (List.nil_prefix) h
  | cons n p ih =>
    cases node with
    | directory mode entries =>
      cases q with
      | nil => rfl
      | cons m q =>
        simp only [face?, modify, get?, lookup_map_if]
        split
        · next hm =>
          subst hm
          have hp : ¬ p <+: q := fun hp => h (List.cons_prefix_cons.mpr ⟨rfl, hp⟩)
          cases entries.lookup m with
          | none => rfl
          | some child => exact ih child hp
        · rfl
    | _ => rfl

/-- Off the way to a place, nothing is changed there. -/
theorem get?_modify_of_not_prefix (f : Node → Node) (node : Node) {p q : Place}
    (h : ¬ p <+: q) (h' : ¬ q <+: p) : (node.modify f p).get? q = node.get? q := by
  induction p generalizing node q with
  | nil => exact absurd (List.nil_prefix) h
  | cons n p ih =>
    cases node with
    | directory mode entries =>
      cases q with
      | nil => exact absurd (List.nil_prefix) h'
      | cons m q =>
        simp only [modify, get?, lookup_map_if]
        split
        · next hm =>
          subst hm
          rw [List.cons_prefix_cons, not_and] at h h'
          cases entries.lookup m with
          | none => rfl
          | some child => exact ih child (h rfl) (h' rfl)
        · rfl
    | _ => rfl

end Node

namespace Volume

variable {v v' : Volume} {p q : Place} {d : Place} {n : Name} {mode : Mode}

/-- What is at a place, apart from what is below it. -/
def face? (v : Volume) (p : Place) : Option Face :=
  v.root.face? p

theorem face?_eq_some {fc : Face} :
    v.face? p = some fc ↔ ∃ node, v.node? p = some node ∧ node.face = fc :=
  Option.map_eq_some_iff

theorem node?_of_directory (h : v.face? d = some (.directory mode)) :
    ∃ entries, v.node? d = some (.directory mode entries) := by
  obtain ⟨node, hn, hf⟩ := face?_eq_some.mp h
  cases node with
  | directory m entries => cases hf; exact ⟨entries, hn⟩
  | _ => exact absurd hf (by simp [Node.face])

/-- Below nothing is nothing. -/
theorem face?_append_of_none (h : v.face? p = none) (q : Place) : v.face? (p ++ q) = none :=
  Node.face?_eq_none.mpr (Node.get?_eq_none_append (Node.face?_eq_none.mp h) q)

/-- Entries are in directories only. -/
theorem exists_directory_of_face? {r : Place} {fc : Face} (h : v.face? (d ++ n :: r) = some fc) :
    ∃ mode, v.face? d = some (.directory mode) := by
  obtain ⟨node, hn, -⟩ := face?_eq_some.mp h
  rw [node?, Node.get?_append] at hn
  obtain ⟨parent, hp, hc⟩ := Option.bind_eq_some_iff.mp hn
  obtain ⟨mode, entries, -, rfl, -⟩ := Node.get?_cons hc
  exact ⟨mode, face?_eq_some.mpr ⟨_, hp, rfl⟩⟩

/-- On the way to what is no link are directories, and no links. -/
theorem face?_ne_link {rel r : Place} {fc : Face} {target : Path} (h : v.face? (d ++ rel) = some fc)
    (hfc : ∀ target, fc ≠ .link target) (hr : r <+: rel) :
    v.face? (d ++ r) ≠ some (.link target) := by
  obtain ⟨rest, rfl⟩ := hr
  intro hl
  cases rest with
  | nil =>
    rw [List.append_nil] at h
    exact hfc target (Option.some.inj (h.symm.trans hl))
  | cons k rest =>
    rw [← List.append_assoc] at h
    obtain ⟨m, hm⟩ := exists_directory_of_face? h
    exact absurd (hm.symm.trans hl) (by simp)

/-- One volume has a given face at a place, or none, and looks like the other elsewhere. -/
structure Puts (v : Volume) (p : Place) (fc : Option Face) (v' : Volume) : Prop where
  here : v'.here = v.here
  face?_self : v'.face? p = fc
  face?_of_ne : ∀ q, q ≠ p → v'.face? q = v.face? q

theorem Puts.symm {fc : Option Face} (h : Puts v p fc v') : Puts v' p (v.face? p) v :=
  ⟨h.here.symm, rfl, fun q hq => (h.face?_of_ne q hq).symm⟩

theorem Puts.trans {v'' : Volume} {a b : Option Face} (h : Puts v p a v') (h' : Puts v' p b v'') :
    Puts v p b v'' :=
  ⟨h'.here.trans h.here, h'.face?_self,
    fun q hq => (h'.face?_of_ne q hq).trans (h.face?_of_ne q hq)⟩

theorem face?_modify_append (f : Node → Node) (v : Volume) (p q : Place) :
    (v.modify p f).face? (p ++ q)
      = ((v.node? p).bind fun child => (f child).get? q).map Node.face := by
  rw [face?, Node.face?, modify, Node.get?_modify_append]
  rfl

/-- An entry of a directory is what its entries have under the name. -/
theorem node?_concat {entries : List (Name × Node)}
    (hd : v.node? d = some (.directory mode entries)) (n : Name) :
    v.node? (d ++ [n]) = entries.lookup n := by
  rw [node?, Node.get?_append, show v.root.get? d = _ from hd]
  simp [Node.get?]

/-- One entry of a directory becomes another one or goes, where nothing is below it. -/
theorem puts_entry {f : Node → Node} {entries entries' : List (Name × Node)} {x : Option Node}
    (hd : v.node? d = some (.directory mode entries))
    (hf : f (.directory mode entries) = .directory mode entries')
    (hlookup : ∀ m, entries'.lookup m = if m = n then x else entries.lookup m)
    (hold : ∀ y ∈ entries.lookup n, ∀ m q, y.get? (m :: q) = none)
    (hnew : ∀ y ∈ x, ∀ m q, y.get? (m :: q) = none) :
    Puts v (d ++ [n]) (x.map Node.face) (v.modify d f) := by
  refine ⟨rfl, ?_, ?_⟩
  · rw [face?_modify_append, hd, Option.bind_some, hf]
    simp [Node.get?, hlookup]
  intro q hq
  by_cases hp : d <+: q
  · obtain ⟨r, rfl⟩ := hp
    rw [face?_modify_append, face?, Node.face?, Node.get?_append, show v.root.get? d = _ from hd,
      hd, Option.bind_some, Option.bind_some, hf]
    cases r with
    | nil => rfl
    | cons m r =>
      rw [Node.get?, Node.get?, hlookup]
      by_cases hm : m = n
      · subst hm
        cases r with
        | nil => exact absurd rfl hq
        | cons m' r =>
          rw [if_pos rfl, Option.bind_eq_none_iff.mpr fun y hy => hnew y hy m' r,
            Option.bind_eq_none_iff.mpr fun y hy => hold y hy m' r]
      · rw [if_neg hm]
  · exact Node.face?_modify_of_not_prefix _ _ hp

/-- An entry of a directory, with nothing below it, where no directory is. -/
theorem puts_replace {x : Node} (hd : v.face? d = some (.directory mode))
    (hn : ∀ m, v.face? (d ++ [n]) ≠ some (.directory m)) (hx : ∀ m q, x.get? (m :: q) = none) :
    Puts v (d ++ [n]) (some x.face) (v.modify d (Node.put n x)) := by
  obtain ⟨entries, he⟩ := node?_of_directory hd
  refine puts_entry (x := some x) he rfl (fun m => Node.lookup_insertEntry n m x entries) ?_ ?_
  · intro y hy
    have hface : v.face? (d ++ [n]) = some y.face :=
      face?_eq_some.mpr ⟨y, (node?_concat he n).trans hy, rfl⟩
    exact Node.get?_eq_none_of_face fun m hm => hn m (hm ▸ hface)
  · simpa using hx

/-- A new entry of a directory, with nothing below it. -/
theorem puts_put {x : Node} (hd : v.face? d = some (.directory mode))
    (hn : v.face? (d ++ [n]) = none) (hx : ∀ m q, x.get? (m :: q) = none) :
    Puts v (d ++ [n]) (some x.face) (v.modify d (Node.put n x)) :=
  puts_replace hd (fun m hm => absurd (hn.symm.trans hm) (by simp)) hx

/-- An entry of a directory that is taken away, with nothing below it. -/
theorem puts_erase {x : Node} (hd : v.face? d = some (.directory mode))
    (hn : v.node? (d ++ [n]) = some x) (hx : ∀ m q, x.get? (m :: q) = none) :
    Puts v (d ++ [n]) none (v.modify d (Node.erase n)) := by
  obtain ⟨entries, he⟩ := node?_of_directory hd
  have hsome : entries.lookup n = some x := (node?_concat he n).symm.trans hn
  refine puts_entry (x := none) he rfl (fun m => Node.lookup_filter_name n m entries) ?_ ?_
  · simpa [hsome] using hx
  · simp

/-- Nodes stay as they are where nothing below them is taken away. -/
theorem node?_erase {x : Node} (hd : v.face? d = some (.directory mode))
    (hn : v.node? (d ++ [n]) = some x) (hx : ∀ m q, x.get? (m :: q) = none)
    (hq : ¬ q <+: d ++ [n]) : (v.modify d (Node.erase n)).node? q = v.node? q := by
  by_cases hp : d <+: q
  · obtain ⟨r, rfl⟩ := hp
    obtain ⟨entries, he⟩ := node?_of_directory hd
    have hsome : entries.lookup n = some x := (node?_concat he n).symm.trans hn
    cases r with
    | nil => exact absurd ⟨[n], by simp⟩ hq
    | cons m r =>
      rw [node?, node?, modify, Node.get?_modify_append, Node.get?_append,
        show v.root.get? d = _ from he]
      simp only [Option.bind_some, Node.erase, Node.get?, Node.lookup_filter_name]
      by_cases hm : m = n
      · subst hm
        cases r with
        | nil => exact absurd List.prefix_rfl hq
        | cons m' r => simp [hsome, hx]
      · rw [if_neg hm]
  · exact Node.get?_modify_of_not_prefix _ _ hp fun h => hq (h.trans (List.prefix_append d [n]))

/-- A node that is no directory and does not become one. -/
theorem puts_modify {x : Node} {f : Node → Node} (hp : v.node? p = some x)
    (hx : ∀ m q, x.get? (m :: q) = none) (hfx : ∀ m q, (f x).get? (m :: q) = none) :
    Puts v p (some (f x).face) (v.modify p f) := by
  refine ⟨rfl, ?_, fun q hq => ?_⟩
  · have h := face?_modify_append f v p []
    rw [List.append_nil, hp] at h
    simpa using h
  · by_cases hpq : p <+: q
    · obtain ⟨r, rfl⟩ := hpq
      cases r with
      | nil => exact absurd (List.append_nil p) hq
      | cons m r =>
        rw [face?_modify_append, hp, face?, Node.face?, Node.get?_append,
          show v.root.get? p = _ from hp]
        simp [hx, hfx]
    · exact Node.face?_modify_of_not_prefix _ _ hpq

/-- A file that stays one. -/
theorem puts_modify_file {mode mode' : Mode} {c c' : Content} {f : Node → Node}
    (hp : v.node? p = some (.file mode c)) (hf : f (.file mode c) = .file mode' c') :
    Puts v p (some (.file mode' c')) (v.modify p f) := by
  have hbelow : ∀ m q, (f (.file mode c)).get? (m :: q) = none := by
    intro m q
    rw [hf]
    rfl
  have hputs := puts_modify hp (fun _ _ => rfl) hbelow
  rwa [hf] at hputs

end Volume

end Depot
