import Depot.Proofs.Lookup
import Depot.Proofs.Procedure
import Depot.Proofs.Volume.Access
import Depot.Volume.Layout

/-!
# The order of directories

In a volume every directory has its entries in the order of their names, and no two entries of one
name (`Volume.Ordered`). A walk need not sort siblings for that reason, and a lookup finds every
entry that is listed (`Node.areOrdered_cons`, `lookup_eq_some_iff_mem`).

The blank volume is ordered, and every change of a volume keeps it so: what a system call does to
it, hence what a procedure does to it (`World.ordered_perform`), and what lays it out.

Out of scope: who else changes a directory; a volume is changed by calls alone.
-/

namespace Depot

/-! ## Names in order -/

namespace Name

variable {a b c : Name}

theorem before_iff : a.before b = true ↔ a.bytes < b.bytes :=
  decide_eq_true_iff

theorem bytes_injective : Function.Injective bytes
  | ⟨_, _⟩, ⟨_, _⟩, rfl => rfl

theorem before_trans (hab : a.before b = true) (hbc : b.before c = true) : a.before c = true :=
  before_iff.mpr (List.lt_trans (before_iff.mp hab) (before_iff.mp hbc))

theorem ne_of_before (h : a.before b = true) : a ≠ b := by
  rintro rfl
  exact List.lt_irrefl _ (before_iff.mp h)

theorem before_of_not_before (hne : a ≠ b) (h : ¬ a.before b = true) : b.before a = true := by
  have hle : b.bytes ≤ a.bytes := List.not_lt.mp fun hlt => h (before_iff.mpr hlt)
  have hbytes : b.bytes ≠ a.bytes := fun hb => hne (bytes_injective hb.symm)
  exact before_iff.mpr (Std.lt_of_le_of_ne hle hbytes)

end Name

/-! ## Ordered trees -/

namespace Node

mutual

/-- Whether every directory of a tree has its entries in the order of their names, and no two
entries of one name. -/
def isOrdered : Node → Bool
  | .directory _ entries => areOrdered entries
  | _ => true

/-- Whether entries are in the order of their names, with ordered trees. -/
def areOrdered : List (Name × Node) → Bool
  | [] => true
  | (n, node) :: rest => rest.all (fun e => n.before e.1) && isOrdered node && areOrdered rest

end

variable {n : Name} {x node : Node} {entries rest : List (Name × Node)}

theorem areOrdered_cons : areOrdered ((n, node) :: rest) = true ↔
    (∀ e ∈ rest, n.before e.1 = true) ∧ node.isOrdered = true ∧ areOrdered rest = true := by
  rw [areOrdered, Bool.and_eq_true, Bool.and_eq_true, List.all_eq_true, and_assoc]

theorem isOrdered_of_mem (h : areOrdered entries = true) {e : Name × Node} (he : e ∈ entries) :
    e.2.isOrdered = true := by
  induction entries with
  | nil => exact absurd he List.not_mem_nil
  | cons first rest ih =>
    obtain ⟨-, hnode, hrest⟩ := areOrdered_cons.mp h
    rcases List.mem_cons.mp he with rfl | he
    · exact hnode
    · exact ih hrest he

theorem mem_of_lookup (hx : entries.lookup n = some x) : (n, x) ∈ entries := by
  obtain ⟨before, rest, rfl, -⟩ := List.lookup_eq_some_iff.mp hx
  exact List.mem_append_right _ List.mem_cons_self

/-- What a lookup in an ordered directory finds is every entry that it has. -/
theorem lookup_eq_some_iff_mem (h : areOrdered entries = true) :
    entries.lookup n = some x ↔ (n, x) ∈ entries := by
  refine ⟨mem_of_lookup, fun hx => ?_⟩
  induction entries with
  | nil => exact absurd hx List.not_mem_nil
  | cons first rest ih =>
    obtain ⟨m, y⟩ := first
    obtain ⟨hbefore, -, hrest⟩ := areOrdered_cons.mp h
    rw [lookup_cons_if]
    rcases List.mem_cons.mp hx with he | hx
    · obtain ⟨rfl, rfl⟩ := Prod.mk.inj he
      exact if_pos rfl
    · rw [if_neg (Name.ne_of_before (hbefore _ hx)).symm, ih hrest hx]

/-- What is below an ordered tree is ordered. -/
theorem isOrdered_get? {p : Place} (h : node.isOrdered = true) (hx : node.get? p = some x) :
    x.isOrdered = true := by
  induction p generalizing node with
  | nil =>
    rw [get?_nil] at hx
    exact Option.some.inj hx ▸ h
  | cons n p ih =>
    obtain ⟨mode, entries, child, rfl, hn, hchild⟩ := get?_cons hx
    have hentries : areOrdered entries = true := h
    exact ih (isOrdered_of_mem hentries (mem_of_lookup hn)) hchild

/-! ## Changes -/

theorem mem_insertEntry {e : Name × Node} (he : e ∈ insertEntry n x entries) :
    e = (n, x) ∨ e ∈ entries := by
  induction entries with
  | nil => exact .inl (List.mem_singleton.mp he)
  | cons first rest ih =>
    obtain ⟨m, y⟩ := first
    rw [insertEntry] at he
    split at he
    · exact (List.mem_cons.mp he).imp_right (List.mem_cons_of_mem _)
    · split at he
      · exact List.mem_cons.mp he
      · rcases List.mem_cons.mp he with rfl | he
        · exact .inr List.mem_cons_self
        · exact (ih he).imp_right (List.mem_cons_of_mem _)

theorem areOrdered_insertEntry (hx : x.isOrdered = true) (h : areOrdered entries = true) :
    areOrdered (insertEntry n x entries) = true := by
  induction entries with
  | nil => exact areOrdered_cons.mpr ⟨nofun, hx, rfl⟩
  | cons first rest ih =>
    obtain ⟨m, y⟩ := first
    obtain ⟨hbefore, hy, hrest⟩ := areOrdered_cons.mp h
    rw [insertEntry]
    split
    · next hnm => exact areOrdered_cons.mpr ⟨hnm ▸ hbefore, hx, hrest⟩
    · next hnm =>
      split
      · next hn =>
        refine areOrdered_cons.mpr ⟨fun e he => ?_, hx, h⟩
        rcases List.mem_cons.mp he with rfl | he
        · exact hn
        · exact Name.before_trans hn (hbefore e he)
      · next hn =>
        refine areOrdered_cons.mpr ⟨fun e he => ?_, hy, ih hrest⟩
        rcases mem_insertEntry he with rfl | he
        · exact Name.before_of_not_before hnm hn
        · exact hbefore e he

theorem areOrdered_filter (p : Name × Node → Bool) (h : areOrdered entries = true) :
    areOrdered (entries.filter p) = true := by
  induction entries with
  | nil => rfl
  | cons first rest ih =>
    obtain ⟨m, y⟩ := first
    obtain ⟨hbefore, hy, hrest⟩ := areOrdered_cons.mp h
    rw [List.filter_cons]
    split
    · exact areOrdered_cons.mpr
        ⟨fun e he => hbefore e (List.mem_of_mem_filter he), hy, ih hrest⟩
    · exact ih hrest

/-- Entries stay in order if their trees do. -/
theorem areOrdered_map {f : Node → Node}
    (hf : ∀ node, node.isOrdered = true → (f node).isOrdered = true)
    (h : areOrdered entries = true) :
    areOrdered (entries.map fun e => if e.1 = n then (e.1, f e.2) else e) = true := by
  induction entries with
  | nil => rfl
  | cons first rest ih =>
    obtain ⟨m, y⟩ := first
    obtain ⟨hbefore, hy, hrest⟩ := areOrdered_cons.mp h
    have hnames : ∀ e ∈ rest.map fun e => if e.1 = n then (e.1, f e.2) else e,
        m.before e.1 = true := by
      intro e he
      obtain ⟨old, hold, rfl⟩ := List.mem_map.mp he
      split <;> exact hbefore old hold
    rw [List.map_cons]
    split
    · exact areOrdered_cons.mpr ⟨hnames, hf y hy, ih hrest⟩
    · exact areOrdered_cons.mpr ⟨hnames, hy, ih hrest⟩

theorem isOrdered_put (hx : x.isOrdered = true) (h : node.isOrdered = true) :
    (put n x node).isOrdered = true := by
  cases node with
  | directory mode entries => exact areOrdered_insertEntry hx h
  | _ => exact h

theorem isOrdered_erase (n : Name) (h : node.isOrdered = true) :
    (erase n node).isOrdered = true := by
  cases node with
  | directory mode entries => exact areOrdered_filter _ h
  | _ => exact h

theorem isOrdered_modify {f : Node → Node} (p : Place)
    (hf : ∀ node, node.isOrdered = true → (f node).isOrdered = true) (h : node.isOrdered = true) :
    (modify f p node).isOrdered = true := by
  induction p generalizing node with
  | nil => exact hf node h
  | cons n p ih =>
    cases node with
    | directory mode entries => exact areOrdered_map (fun _ => ih) h
    | _ => exact h

end Node

/-! ## Ordered volumes -/

namespace Volume

/-- Every directory of a volume has its entries in the order of their names, each name once. -/
def Ordered (v : Volume) : Prop :=
  v.root.isOrdered = true

instance (v : Volume) : Decidable v.Ordered :=
  inferInstanceAs (Decidable (_ = true))

theorem ordered_blank : blank.Ordered := by
  decide +kernel

variable {v v' : Volume} {p : Place} {path : Path}

theorem Ordered.node? (h : v.Ordered) {node : Node} (hn : v.node? p = some node) :
    node.isOrdered = true :=
  Node.isOrdered_get? h hn

theorem Ordered.modify (h : v.Ordered) {f : Node → Node}
    (hf : ∀ node, node.isOrdered = true → (f node).isOrdered = true) : (v.modify p f).Ordered :=
  Node.isOrdered_modify p hf h

theorem Ordered.addEntry (h : v.Ordered) {n : Name} {node : Node} (hnode : node.isOrdered = true)
    (hv : v.addEntry p n node = .ok v') : v'.Ordered := by
  unfold Volume.addEntry at hv
  split at hv
  · exact Except.ok.inj hv ▸ h.modify fun _ => Node.isOrdered_put hnode
  · exact nomatch hv

theorem Ordered.makeDirectory (h : v.Ordered) (hv : v.makeDirectory path = .ok v') :
    v'.Ordered := by
  obtain ⟨spot, -, hv⟩ := bind_eq_ok.mp hv
  split at hv
  · exact h.addEntry rfl hv
  · exact nomatch hv

theorem Ordered.makeFirst (h : v.Ordered) (paths : List Path) : (v.makeFirst paths).2.Ordered := by
  induction paths generalizing v with
  | nil => exact h
  | cons path above ih =>
    rw [Volume.makeFirst]
    split
    · next v₁ hv => exact h.makeDirectory hv
    · split
      · next hfirst => simpa [hfirst] using ih h
      · next v₁ hfirst =>
        have h₁ : v₁.Ordered := by simpa [hfirst] using ih h
        split
        · next hv => exact h₁.makeDirectory hv
        · exact h₁
    · exact h

theorem Ordered.createWith (h : v.Ordered) {mode : Mode} {place : Place}
    (hv : v.createWith mode path = .ok (place, v')) : v'.Ordered := by
  obtain ⟨spot, -, hv⟩ := bind_eq_ok.mp hv
  split at hv
  · exact nomatch hv
  · exact nomatch hv
  · next n _ _ =>
    cases hadd : v.addEntry spot.directory n (.file mode.masked .empty) with
    | error k =>
      rw [hadd] at hv
      exact nomatch hv
    | ok v₁ =>
      rw [hadd] at hv
      exact (Prod.mk.inj (Except.ok.inj hv)).2 ▸ h.addEntry rfl hadd
  · split at hv
    · exact (Prod.mk.inj (Except.ok.inj hv)).2 ▸ h.modify fun _ _ => rfl
    · exact nomatch hv
  · exact (Prod.mk.inj (Except.ok.inj hv)).2 ▸ h
  · exact nomatch hv
  · exact nomatch hv

theorem Ordered.writeAt (h : v.Ordered) (p : Place) (content : Content) :
    (v.writeAt p content).2.Ordered := by
  unfold Volume.writeAt
  split
  · exact h
  split
  · exact h
  · dsimp only [fill]
    split
    · exact h
    · refine h.modify fun node hnode => ?_
      cases node <;> exact hnode

theorem Ordered.copyAt (h : v.Ordered) (source dest : Place) :
    (v.copyAt source dest).2.Ordered := by
  rw [copyAt_snd]
  exact h.writeAt _ _

theorem Ordered.setModeAt (h : v.Ordered) {mode : Mode} (hv : v.setModeAt p mode = .ok v') :
    v'.Ordered := by
  unfold Volume.setModeAt at hv
  split at hv
  · exact nomatch hv
  · refine Except.ok.inj hv ▸ h.modify fun node hnode => ?_
    cases node <;> exact hnode

theorem Ordered.copyFile (h : v.Ordered) (source dest : Path) :
    (v.copyFile source dest).2.Ordered := by
  unfold Volume.copyFile
  split
  · exact h
  · dsimp only
    split
    · exact h
    · next hcreate =>
      have h₁ := h.createWith hcreate
      split
      · exact h₁
      · next hmode => exact (h₁.setModeAt hmode).copyAt _ _

theorem Ordered.remove (h : v.Ordered) (hv : v.remove path = .ok v') : v'.Ordered := by
  obtain ⟨d, n, node, -, -, -, rfl⟩ := remove_eq_ok.mp hv
  exact h.modify fun _ => Node.isOrdered_erase n

theorem Ordered.rename {source dest : Path} (h : v.Ordered) (hv : v.rename source dest = .ok v') :
    v'.Ordered := by
  obtain ⟨old, new, n, m, node, hold, -, -, -, hnode, -, ⟨-, rfl⟩ | ⟨-, -, -, -, -, rfl⟩⟩ :=
    rename_eq_ok hv
  · exact h
  · -- the node that is moved is one of the volume
    have hmoved : node.isOrdered = true := h.node? ((sound_of_find hold).get?_place hnode)
    exact (h.modify fun _ => Node.isOrdered_erase n).modify fun _ => Node.isOrdered_put hmoved

theorem Ordered.layDirectory (h : v.Ordered) (hv : v.layDirectory path = .ok v') :
    v'.Ordered := by
  unfold Volume.layDirectory at hv
  have hmade : (v.makeDirectories path).2.Ordered := h.makeFirst _
  split at hv
  · next v₁ hmake =>
    rw [hmake] at hmade
    exact Except.ok.inj hv ▸ hmade
  · exact nomatch hv

theorem Ordered.setMode {mode : Mode} (h : v.Ordered) (hv : v.setMode path mode = .ok v') :
    v'.Ordered := by
  obtain ⟨⟨place, node⟩, -, hv⟩ := bind_eq_ok.mp hv
  exact h.setModeAt hv

theorem Ordered.layFile {content : Content} {mode : Option Mode} (h : v.Ordered)
    (hv : v.layFile path content mode = .ok v') : v'.Ordered := by
  obtain ⟨v₁, hparent, hv⟩ := bind_eq_ok.mp hv
  have h₁ : v₁.Ordered := by
    unfold Volume.layParent at hparent
    split at hparent
    · exact h.layDirectory hparent
    · exact Except.ok.inj hparent ▸ h
  obtain ⟨⟨place, v₂⟩, hcreate, hv⟩ := bind_eq_ok.mp hv
  have h₃ := (h₁.createWith hcreate).writeAt place content
  dsimp only at hv
  rcases hwrite : v₂.writeAt place content with ⟨k | u, v₃⟩ <;> rw [hwrite] at hv h₃
  · exact nomatch hv
  · cases mode with
    | some mode => exact h₃.setMode hv
    | none => exact Except.ok.inj hv ▸ h₃

theorem Ordered.makeLink {target : Path} (h : v.Ordered) (hv : v.makeLink path target = .ok v') :
    v'.Ordered := by
  obtain ⟨spot, -, hv⟩ := bind_eq_ok.mp hv
  split at hv
  · split at hv
    · exact nomatch hv
    · exact h.addEntry rfl hv
  · exact nomatch hv

theorem Ordered.makeSocket (h : v.Ordered) (hv : v.makeSocket path = .ok v') : v'.Ordered := by
  obtain ⟨spot, -, hv⟩ := bind_eq_ok.mp hv
  split at hv
  · split at hv
    · exact nomatch hv
    · exact h.addEntry rfl hv
  · exact nomatch hv

theorem Ordered.removeTree (h : v.Ordered) (hv : v.removeTree path = .ok v') : v'.Ordered := by
  obtain ⟨spot, -, hv⟩ := bind_eq_ok.mp hv
  split at hv
  · split at hv
    · exact Except.ok.inj hv ▸ h.modify fun _ => Node.isOrdered_erase _
    · exact nomatch hv
  · exact h.remove hv

end Volume

/-! ## Worlds -/

namespace World

variable {w : World}

theorem ordered_changing {r : Except IoKind Volume} (h : w.volume.Ordered)
    (hr : ∀ v, r = .ok v → v.Ordered) : (w.changing r).2.volume.Ordered := by
  cases r with
  | ok v => exact hr v rfl
  | error k => exact h

/-- A call leaves directories in order. -/
theorem ordered_answer (h : w.volume.Ordered) (c : Call) : (answer c w).2.volume.Ordered := by
  cases c with
  | makeDirectories p => exact h.makeFirst _
  | create p =>
    rw [volume_create]
    split
    · next hv => exact h.createWith hv
    · exact h
  | write handle content => exact h.writeAt _ _
  | copy source dest => exact h.copyAt _ _
  | copyFile p q => exact h.copyFile p q
  | remove p => exact ordered_changing h fun _ => h.remove
  | rename p q => exact ordered_changing h fun _ => h.rename
  | put s | get s | body s | head s | sign s =>
    cases s <;> exact h
  | stat | walk | openFile | mode | read | nonce => exact h

/-- A procedure leaves directories in order. -/
theorem ordered_perform {α : Type} (h : w.volume.Ordered) (p : Procedure α) :
    (w.perform p).2.volume.Ordered := by
  induction p generalizing w with
  | done a => exact h
  | ask c next ih => exact ih _ (ordered_answer h c)

end World

end Depot
