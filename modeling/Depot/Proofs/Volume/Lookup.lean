import Depot.Proofs.Volume.Node
import Depot.Volume.Lookup

/-!
# Where paths lead

What holds of a lookup that succeeds is proved along its components and its hops (`Hops`,
`locate_induction`). A lookup sees of a volume the faces on its way. So one that succeeds leads
where it did while directories and links stay and no link is added (`Steady.find`,
`Steady.existing`).

A path of two parts leads to where its second part leads from the place of the first
(`hop_append`, `locate_append`). Where no links are on the way, it leads where its components say
(`Linkless.locate`).
-/

namespace Depot.Volume

variable {root : Node} {last : Last} {closed : Bool} {p : Place} {n : Name}

/-! ## One component -/

/-- Whether a directory is there that may be entered. -/
def entered : Option Face → Except IoKind Unit
  | none => .error .notFound
  | some (.directory mode) => if mode.enters then .ok () else .error .permissionDenied
  | some _ => .error .notADirectory

theorem entered_eq_ok {fc : Option Face} :
    entered fc = .ok () ↔ ∃ mode, fc = some (.directory mode) ∧ mode.enters = true := by
  unfold entered
  split
  · simp
  · simp
  · next h => simp; exact fun mode he => absurd he (h mode)

/-- A lookup of a name in a directory that is entered looks one name further. -/
theorem enter_bind {β : Type} (root : Node) (p : Place) (n : Name)
    (g : Option Node → Except IoKind β) :
    (enter root p >>= fun entries => g (entries.lookup n))
      = entered (root.face? p) >>= fun _ => g (root.get? (p ++ [n])) := by
  rw [Node.get?_append]
  unfold enter Node.face?
  cases root.get? p with
  | none => rfl
  | some node =>
    cases node with
    | directory mode entries =>
      simp only [Option.map_some, Node.face, entered, Option.bind_some]
      split
      · simp [Node.get?, bind, Except.bind]
      · rfl
    | _ => rfl

theorem enter_bind_const {β : Type} (root : Node) (p : Place) (x : Except IoKind β) :
    (enter root p >>= fun _ => x) = entered (root.face? p) >>= fun _ => x := by
  unfold enter Node.face?
  cases root.get? p with
  | none => rfl
  | some node =>
    cases node with
    | directory mode entries =>
      simp only [Option.map_some, Node.face, entered]
      split <;> rfl
    | _ => rfl

/-- What a link leads to. -/
def target? : Option Node → Option Path
  | some (.link target) => some target
  | _ => none

/-- What becomes of the last name. -/
def arrive (last : Last) (closed : Bool) (p : Place) (n : Name) (node : Option Node) :
    Except IoKind Hop :=
  if last = .create ∧ closed then .error .isADirectory
  else if maxName < n.bytes.length then .error .invalidFilename
  else
    match if last = .keep then none else target? node with
    | some target => .ok (.through p target [] (closed || target.isClosed))
    | none => .ok (.spot ⟨p, some n, node, closed⟩)

theorem hop_nil : hop root last closed p [] = .ok (.spot ⟨p, none, root.get? p, closed⟩) := by
  rw [hop]

theorem hop_name : hop root last closed p [.name n]
    = entered (root.face? p) >>= fun _ => arrive last closed p n (root.get? (p ++ [n])) := by
  rw [hop, ← enter_bind root p n (arrive last closed p n), lastEntry]
  congr 1
  funext entries
  rcases entries.lookup n with _ | (_ | _ | _ | _ | _) <;> by_cases hk : last = .keep <;>
    simp [arrive, target?, hk, pure, Except.pure]

/-- What becomes of a name that something follows. -/
def passName (root : Node) (last : Last) (closed : Bool) (p : Place) (rest : List Segment)
    (n : Name) (node : Option Node) : Except IoKind Hop :=
  if maxName < n.bytes.length then .error .invalidFilename
  else if node.isNone then .error .notFound
  else
    match target? node with
    | some target => .ok (.through p target rest closed)
    | none => hop root last closed (p ++ [n]) rest

/-- What becomes of a component that is not a name at the end. -/
def pass (root : Node) (last : Last) (closed : Bool) (p : Place) (rest : List Segment) :
    Segment → Except IoKind Hop
  | .stay => hop root last closed p rest
  | .up => hop root last closed p.dropLast rest
  | .name n => passName root last closed p rest n (root.get? (p ++ [n]))

theorem hop_cons {s : Segment} {rest : List Segment} (h : ∀ n, s = .name n → rest ≠ []) :
    hop root last closed p (s :: rest)
      = entered (root.face? p) >>= fun _ => pass root last closed p rest s := by
  cases s with
  | stay => rw [hop, enter_bind_const]; rfl; simp
  | up => rw [hop, enter_bind_const]; rfl; simp
  | name n =>
    rw [pass, ← enter_bind root p n (passName root last closed p rest n), hop]
    · congr 1
      funext entries
      dsimp only
      rcases entries.lookup n with _ | (_ | _ | _ | _ | _) <;>
        simp [passName, target?, pure, Except.pure]
    · exact fun _ _ => h n rfl

/-- Components that name an entry at the end, or do not. -/
theorem last_cases (s : Segment) (rest : List Segment) :
    (∃ n, s = .name n ∧ rest = []) ∨ ∀ n, s = .name n → rest ≠ [] := by
  cases s with
  | name n =>
    by_cases hr : rest = []
    · exact .inl ⟨n, rfl, hr⟩
    · exact .inr fun _ _ => hr
  | _ => exact .inr fun _ h => absurd h (by simp)

theorem passName_eq_ok {rest : List Segment} {node : Option Node} {r : Hop} :
    passName root last closed p rest n node = .ok r ↔
      n.bytes.length ≤ maxName ∧ node.isSome ∧
        ((∃ target, target? node = some target ∧ r = .through p target rest closed) ∨
          target? node = none ∧ hop root last closed (p ++ [n]) rest = .ok r) := by
  unfold passName
  split
  · next h => simp [Nat.not_le.mpr h]
  · next h =>
    cases node with
    | none => simp
    | some node =>
      cases ht : target? (some node) with
      | none => simp [Nat.not_lt.mp h]
      | some target => simp [Nat.not_lt.mp h, eq_comm]

theorem arrive_eq_ok {node : Option Node} {r : Hop} :
    arrive last closed p n node = .ok r ↔
      ¬ (last = .create ∧ closed = true) ∧ n.bytes.length ≤ maxName ∧
        ((∃ target, last ≠ .keep ∧ target? node = some target ∧
            r = .through p target [] (closed || target.isClosed)) ∨
          (last = .keep ∨ target? node = none) ∧ r = .spot ⟨p, some n, node, closed⟩) := by
  unfold arrive
  by_cases hc : last = .create ∧ closed = true
  · simp [hc]
  rw [if_neg hc]
  by_cases hl : maxName < n.bytes.length
  · simp [hl, Nat.not_le.mpr hl]
  rw [if_neg hl]
  by_cases hk : last = .keep
  · simp [hk, Nat.not_lt.mp hl, eq_comm]
  · cases ht : target? node <;> simp [hc, hk, Nat.not_lt.mp hl, eq_comm]

theorem isSome_of_target? {node : Option Node} {target : Path} (h : target? node = some target) :
    node.isSome := by
  cases node with
  | none => exact absurd h (by simp [target?])
  | some _ => rfl

/-- The hops that succeed: there are no components, the only one is a name, or the first one is
passed, unless it is a link. -/
inductive Hops (root : Node) (last : Last) (closed : Bool) (r : Hop) :
    Place → List Segment → Prop where
  | here {p : Place} (hr : r = .spot ⟨p, none, root.get? p, closed⟩) : Hops root last closed r p []
  | name {p : Place} {n : Name} (he : entered (root.face? p) = .ok ())
      (ha : arrive last closed p n (root.get? (p ++ [n])) = .ok r) :
      Hops root last closed r p [.name n]
  | stay {p : Place} {rest : List Segment} (he : entered (root.face? p) = .ok ())
      (h : Hops root last closed r p rest) : Hops root last closed r p (.stay :: rest)
  | up {p : Place} {rest : List Segment} (he : entered (root.face? p) = .ok ())
      (h : Hops root last closed r p.dropLast rest) : Hops root last closed r p (.up :: rest)
  | link {p : Place} {n : Name} {rest : List Segment} {target : Path} (hne : rest ≠ [])
      (he : entered (root.face? p) = .ok ()) (hl : n.bytes.length ≤ maxName)
      (ht : target? (root.get? (p ++ [n])) = some target) (hr : r = .through p target rest closed) :
      Hops root last closed r p (.name n :: rest)
  | pass {p : Place} {n : Name} {rest : List Segment} (hne : rest ≠ [])
      (he : entered (root.face? p) = .ok ()) (hl : n.bytes.length ≤ maxName)
      (hsome : (root.get? (p ++ [n])).isSome) (ht : target? (root.get? (p ++ [n])) = none)
      (h : Hops root last closed r (p ++ [n]) rest) : Hops root last closed r p (.name n :: rest)

theorem hop_eq_ok {segments : List Segment} {r : Hop} :
    hop root last closed p segments = .ok r ↔ Hops root last closed r p segments := by
  constructor
  · intro h
    induction segments generalizing p with
    | nil =>
      rw [hop_nil] at h
      exact .here (Except.ok.inj h).symm
    | cons s rest ih =>
      rcases last_cases s rest with ⟨n, rfl, rfl⟩ | hs
      · rw [hop_name] at h
        obtain ⟨⟨⟩, he, ha⟩ := bind_eq_ok.mp h
        exact .name he ha
      · rw [hop_cons hs] at h
        obtain ⟨⟨⟩, he, h⟩ := bind_eq_ok.mp h
        cases s with
        | stay => exact .stay he (ih h)
        | up => exact .up he (ih h)
        | name n =>
          obtain ⟨hl, hsome, ⟨target, ht, hr⟩ | ⟨ht, h⟩⟩ := passName_eq_ok.mp h
          · exact .link (hs n rfl) he hl ht hr
          · exact .pass (hs n rfl) he hl hsome ht (ih h)
  · intro h
    induction h with
    | here hr => rw [hop_nil, hr]
    | name he ha =>
      rw [hop_name, he]
      exact ha
    | stay he _ ih | up he _ ih =>
      rw [hop_cons (by simp), he]
      exact ih
    | link hne he hl ht hr =>
      rw [hop_cons fun _ _ => hne, he]
      exact passName_eq_ok.mpr ⟨hl, isSome_of_target? ht, .inl ⟨_, ht, hr⟩⟩
    | pass hne he hl hsome ht _ ih =>
      rw [hop_cons fun _ _ => hne, he]
      exact passName_eq_ok.mpr ⟨hl, hsome, .inr ⟨ht, ih⟩⟩

/-- A hop goes on from a directory that may be entered. -/
theorem entered_of_hop {segments : List Segment} (hs : segments ≠ []) {r : Hop}
    (hr : hop root last closed p segments = .ok r) : entered (root.face? p) = .ok () := by
  cases hop_eq_ok.mp hr with
  | here => exact absurd rfl hs
  | name he | stay he | up he | link _ he | pass _ he => exact he

/-! ## Lookups in a volume that changes -/

/-- Directories stay, and so do links, to which none is added. -/
structure Steady (v v' : Volume) : Prop where
  here : v'.here = v.here
  directory : ∀ q mode, v.face? q = some (.directory mode) → v'.face? q = some (.directory mode)
  link : ∀ q target, v'.face? q = some (.link target) ↔ v.face? q = some (.link target)

theorem Steady.refl (v : Volume) : Steady v v :=
  ⟨rfl, fun _ _ h => h, fun _ _ => .rfl⟩

theorem Steady.trans {v v' v'' : Volume} (h : Steady v v') (h' : Steady v' v'') : Steady v v'' :=
  ⟨h'.here.trans h.here, fun q mode hq => h'.directory q mode (h.directory q mode hq),
    fun q target => (h'.link q target).trans (h.link q target)⟩

/-- Where something changes to and from what lookups do not go through, they lead where they did. -/
theorem Puts.steady {v v' : Volume} {fc : Option Face} (h : Puts v p fc v')
    (hold : ∀ old, v.face? p = some old → old.EndsHere)
    (hnew : ∀ new, fc = some new → new.EndsHere) :
    Steady v v' := by
  refine ⟨h.here, fun q mode hq => ?_, fun q target => ?_⟩
  · rw [h.face?_of_ne q fun hqp => hold (.directory mode) (hqp ▸ hq), hq]
  · by_cases hqp : q = p
    · subst hqp
      exact ⟨fun hq => absurd (hnew _ (h.face?_self.symm.trans hq)) id,
        fun hq => absurd (hold _ hq) id⟩
    · rw [h.face?_of_ne q hqp]

theorem Puts.steady_symm {v v' : Volume} {fc : Option Face} (h : Puts v p fc v')
    (hold : ∀ old, v.face? p = some old → old.EndsHere)
    (hnew : ∀ new, fc = some new → new.EndsHere) : Steady v' v :=
  h.symm.steady (fun old ho => hnew old (h.face?_self.symm.trans ho)) hold

/-- The same spot of a volume that may have changed. -/
def Spot.seenIn (root : Node) (s : Spot) : Spot :=
  { s with node := root.get? s.place }

/-- The same hop in a volume that may have changed. -/
def Hop.seenIn (root : Node) : Hop → Hop
  | .spot s => .spot (s.seenIn root)
  | .onward p segments closed => .onward p segments closed

variable {v v' : Volume}

theorem target?_eq_some {q : Place} {target : Path} :
    target? (v.root.get? q) = some target ↔ v.face? q = some (.link target) := by
  rw [face?_eq_some, node?]
  rcases v.root.get? q with _ | (_ | _ | _ | _ | _) <;> simp [target?, Node.face]

theorem Steady.target? (h : Steady v v') (q : Place) :
    target? (v'.root.get? q) = Volume.target? (v.root.get? q) := by
  refine Option.ext fun target => ?_
  rw [target?_eq_some, target?_eq_some, h.link]

theorem Steady.entered (h : Steady v v') (hp : entered (v.root.face? p) = .ok ()) :
    Volume.entered (v'.root.face? p) = .ok () := by
  obtain ⟨mode, hf, he⟩ := entered_eq_ok.mp hp
  exact entered_eq_ok.mpr ⟨mode, h.directory p mode hf, he⟩

/-- One name leads where it did. -/
theorem Steady.arrive (h : Steady v v') (last : Last) (closed : Bool) (p : Place) (n : Name) :
    arrive last closed p n (v'.root.get? (p ++ [n]))
      = (Volume.arrive last closed p n (v.root.get? (p ++ [n]))).map (Hop.seenIn v'.root) := by
  unfold Volume.arrive
  rw [h.target?]
  split
  · rfl
  split
  · rfl
  split
  · rfl
  · simp [Except.map, Hop.seenIn, Spot.seenIn, Spot.place]

/-- A hop that succeeds leads where it did. -/
theorem Steady.hop (h : Steady v v') {segments : List Segment} {r : Hop}
    (hr : hop v.root last closed p segments = .ok r) :
    Volume.hop v'.root last closed p segments = .ok (r.seenIn v'.root) := by
  rw [hop_eq_ok] at hr ⊢
  induction hr with
  | here hr => exact .here (by simp [hr, Hop.seenIn, Spot.seenIn, Spot.place])
  | name he ha =>
    refine .name (h.entered he) ?_
    rw [h.arrive, ha]
    rfl
  | stay he _ ih => exact .stay (h.entered he) ih
  | up he _ ih => exact .up (h.entered he) ih
  | link hne he hl ht hr =>
    exact .link hne (h.entered he) hl ((h.target? _).trans ht) (by rw [hr]; rfl)
  | @pass p n rest hne he hl hsome ht hrest ih =>
    refine .pass hne (h.entered he) hl ?_ ((h.target? _).trans ht) ih
    -- what the rest is looked up in is a directory, so it is there still
    obtain ⟨mode, hf, -⟩ := entered_eq_ok.mp (h.entered (entered_of_hop hne (hop_eq_ok.mpr hrest)))
    obtain ⟨node, hn, -⟩ := face?_eq_some.mp hf
    exact Option.isSome_iff_exists.mpr ⟨node, hn⟩

theorem locate_spot (root : Node) (last : Last) (hops : Nat) (s : Spot) :
    locate root last hops (.spot s) = .ok s := by
  cases hops <;> rw [locate]

theorem locate_succ (root : Node) (last : Last) (hops : Nat) (p : Place) (segments : List Segment)
    (closed : Bool) : locate root last (hops + 1) (.onward p segments closed)
      = hop root last closed p segments >>= locate root last hops := by
  rw [locate]

/-- Induction along the hops of a lookup that succeeds: the last hop finds the spot, and each one
before it goes on behind a link. -/
@[elab_as_elim]
theorem locate_induction {s : Spot} {motive : ∀ hops p segments closed,
      locate root last hops (.onward p segments closed) = .ok s → Prop}
    {hops : Nat} {p : Place} {segments : List Segment} {closed : Bool}
    (h : locate root last hops (.onward p segments closed) = .ok s)
    (found : ∀ {hops p segments closed}
      (h : locate root last (hops + 1) (.onward p segments closed) = .ok s),
      hop root last closed p segments = .ok (.spot s) → motive (hops + 1) p segments closed h)
    (onward : ∀ {hops p segments closed q rest c}
      (h : locate root last (hops + 1) (.onward p segments closed) = .ok s)
      (hrest : locate root last hops (.onward q rest c) = .ok s),
      hop root last closed p segments = .ok (.onward q rest c) → motive hops q rest c hrest →
        motive (hops + 1) p segments closed h) :
    motive hops p segments closed h := by
  induction hops generalizing p segments closed with
  | zero => exact absurd h (by simp [locate])
  | succ hops ih =>
    obtain ⟨r, hhop, hr⟩ := bind_eq_ok.mp (locate_succ .. ▸ h)
    cases r with
    | spot t =>
      rw [locate_spot] at hr
      exact found h (Except.ok.inj hr ▸ hhop)
    | onward q rest c => exact onward h hr hhop (ih hr)

/-- A lookup that succeeds leads where it did. -/
theorem Steady.locate (h : Steady v v') {hops : Nat} {segments : List Segment} {s : Spot}
    (hr : locate v.root last hops (.onward p segments closed) = .ok s) :
    Volume.locate v'.root last hops (.onward p segments closed) = .ok (s.seenIn v'.root) := by
  induction hr using locate_induction with
  | found _ hhop =>
    rw [locate_succ, h.hop hhop]
    exact locate_spot _ _ _ _
  | onward _ _ hhop ih =>
    rw [locate_succ, h.hop hhop]
    exact ih

/-- A path that leads somewhere leads there still. -/
theorem Steady.find (h : Steady v v') {path : Path} {s : Spot} (hr : v.find last path = .ok s) :
    v'.find last path = .ok (s.seenIn v'.root) := by
  unfold Volume.find at hr ⊢
  split at hr
  · exact absurd hr (by simp)
  next h0 =>
  rw [if_neg h0]
  split at hr
  · exact absurd hr (by simp)
  next hl =>
  rw [if_neg hl]
  split at hr
  · exact absurd hr (by simp)
  next he =>
  rw [if_neg he, h.here]
  exact h.locate hr

/-! ## What is found -/

theorem isDirectory_iff {node : Node} :
    node.isDirectory = true ↔ ∃ mode, node.face = .directory mode := by
  cases node <;> simp [Node.isDirectory, Node.face]

/-- What a spot says of the volume that it was found in. -/
structure Spot.Sound (root : Node) (last : Last) (s : Spot) : Prop where
  node : s.node = root.get? s.place
  followed : ∀ n, s.name = some n → last ≠ .keep → target? s.node = none

theorem Spot.Sound.get?_place {s : Spot} (h : s.Sound root last) {node : Node}
    (hn : s.node = some node) : root.get? s.place = some node :=
  h.node.symm.trans hn

theorem sound_of_hop {segments : List Segment} {s : Spot}
    (hr : hop root last closed p segments = .ok (.spot s)) : s.Sound root last := by
  rw [hop_eq_ok] at hr
  induction hr with
  | here hr =>
    cases hr
    exact ⟨by simp [Spot.place], fun n hn => absurd hn (by simp)⟩
  | name _ ha =>
    obtain ⟨-, -, ⟨_, -, -, hr⟩ | ⟨ht, hr⟩⟩ := arrive_eq_ok.mp ha
    · exact absurd hr (by simp [Hop.through])
    · cases hr
      exact ⟨rfl, fun _ _ hk => ht.resolve_left hk⟩
  | link _ _ _ _ hr => exact absurd hr (by simp [Hop.through])
  | stay _ _ ih | up _ _ ih | pass _ _ _ _ _ _ ih => exact ih

theorem sound_of_locate {hops : Nat} {segments : List Segment} {s : Spot}
    (hr : locate root last hops (.onward p segments closed) = .ok s) : s.Sound root last := by
  induction hr using locate_induction with
  | found _ hhop => exact sound_of_hop hhop
  | onward _ _ _ ih => exact ih

/-- Whether a slash asks for a directory at the end. -/
def Hop.isClosed : Hop → Bool
  | .spot s => s.closed
  | .onward _ _ closed => closed

/-- Only a link at the end may ask for a directory where the path does not. -/
theorem isClosed_of_hop_keep {segments : List Segment} {r : Hop}
    (hr : hop root .keep closed p segments = .ok r) : r.isClosed = closed := by
  rw [hop_eq_ok] at hr
  induction hr with
  | here hr | link _ _ _ _ hr => exact hr ▸ rfl
  | name _ ha =>
    obtain ⟨-, -, ⟨_, hk, -⟩ | ⟨-, hr⟩⟩ := arrive_eq_ok.mp ha
    · exact absurd rfl hk
    · exact hr ▸ rfl
  | stay _ _ ih | up _ _ ih | pass _ _ _ _ _ _ ih => exact ih

theorem closed_of_locate_keep {hops : Nat} {segments : List Segment} {s : Spot}
    (hr : locate root .keep hops (.onward p segments closed) = .ok s) : s.closed = closed := by
  induction hr using locate_induction with
  | found _ hhop => exact isClosed_of_hop_keep hhop
  | onward _ _ hhop ih => exact ih.trans (isClosed_of_hop_keep hhop)

/-- A lookup of a path is one of its components, from where the path starts. -/
theorem find_eq_ok {path : Path} {s : Spot} :
    v.find last path = .ok s ↔ (0 ∉ path.bytes ∧ path.bytes.length ≤ maxPath ∧ path.bytes ≠ []) ∧
      locate v.root last (maxLinks + 1)
        (.onward (if path.isAbsolute then [] else v.here) path.route path.isClosed) = .ok s := by
  unfold find
  by_cases h0 : 0 ∈ path.bytes
  · simp [h0]
  · by_cases hl : maxPath < path.bytes.length
    · simp [h0, hl, Nat.not_le.mpr hl]
    · by_cases he : path.bytes = []
      · simp [he]
      · simp [h0, hl, he, Nat.not_lt.mp hl]

theorem closed_of_find_keep {path : Path} {s : Spot} (h : v.find .keep path = .ok s) :
    s.closed = path.isClosed :=
  closed_of_locate_keep (find_eq_ok.mp h).2

theorem sound_of_find {path : Path} {s : Spot} (h : v.find last path = .ok s) :
    s.Sound v.root last :=
  sound_of_locate (find_eq_ok.mp h).2

theorem existing_eq_ok {path : Path} {q : Place} {node : Node} :
    v.existing last path = .ok (q, node) ↔ ∃ s, v.find last path = .ok s ∧ s.place = q ∧
      s.node = some node ∧ (s.closed = true → node.isDirectory = true) := by
  unfold existing
  rw [bind_eq_ok]
  refine exists_congr fun s => and_congr_right fun _ => ?_
  cases hn : s.node with
  | none => simp
  | some node' =>
    simp only
    split
    · next hc =>
      simp only [Bool.not_eq_true', reduceCtorEq, false_iff, not_and, Option.some.injEq] at hc ⊢
      rintro - rfl hd
      exact absurd (hd hc.1) (by simp [hc.2])
    · next hc =>
      simp only [Except.ok.injEq, Prod.mk.injEq, Option.some.injEq]
      constructor
      · rintro ⟨rfl, rfl⟩
        exact ⟨rfl, rfl, fun hcl => by simpa [hcl] using hc⟩
      · exact fun h => ⟨h.1, h.2.1⟩

theorem node?_of_existing {path : Path} {q : Place} {node : Node}
    (h : v.existing last path = .ok (q, node)) : v.node? q = some node := by
  obtain ⟨s, hs, rfl, hn, -⟩ := existing_eq_ok.mp h
  exact (sound_of_find hs).get?_place hn

/-- What a path leads to is found again, with what is there then. -/
theorem Steady.existing (h : Steady v v') {path : Path} {q : Place} {node node' : Node}
    (hr : v.existing last path = .ok (q, node)) (hn : v'.node? q = some node') :
    v'.existing last path = .ok (q, node') := by
  obtain ⟨s, hs, rfl, hnode, hd⟩ := existing_eq_ok.mp hr
  refine existing_eq_ok.mpr ⟨s.seenIn v'.root, h.find hs, rfl, hn, fun hc => ?_⟩
  have hdir := hd hc
  cases node with
  | directory mode entries =>
    have hf := h.directory s.place mode
      (face?_eq_some.mpr ⟨_, node?_of_existing hr, rfl⟩)
    obtain ⟨entries', he⟩ := node?_of_directory hf
    rw [hn] at he
    rw [Option.some.inj he]
    rfl
  | _ => exact absurd hdir (by simp [Node.isDirectory])

/-! ## Paths of two parts -/

/-- A hop fails where nothing can be entered. -/
theorem hop_of_not_entered {segments : List Segment} {k : IoKind} (hs : segments ≠ [])
    (he : entered (root.face? p) = .error k) : hop root last closed p segments = .error k := by
  cases segments with
  | nil => exact absurd rfl hs
  | cons s rest =>
    rcases last_cases s rest with ⟨n, rfl, rfl⟩ | hs
    · rw [hop_name, he]
      rfl
    · rw [hop_cons hs, he]
      rfl

theorem hop_of_none {segments : List Segment} (hs : segments ≠ []) (hp : root.get? p = none) :
    hop root last closed p segments = .error .notFound := by
  refine hop_of_not_entered hs ?_
  rw [Node.face?_eq_none.mpr hp]
  rfl

/-- Where components lead on from what a hop along others gives. -/
def Hop.goOn (root : Node) (last : Last) (closed : Bool) (rest : List Segment) :
    Hop → Except IoKind Hop
  | .spot s => if s.node.isNone then .error .notFound else hop root last closed s.place rest
  | .onward q segments _ => .ok (.onward q (segments ++ rest) closed)

/-- A hop along two parts is one along the first and then one along the second. -/
theorem hop_append {segments rest : List Segment} (hr : rest ≠ []) (c : Bool) :
    hop root last closed p (segments ++ rest)
      = hop root .follow c p segments >>= Hop.goOn root last closed rest := by
  induction segments generalizing p with
  | nil =>
    rw [hop_nil, List.nil_append]
    cases hp : root.get? p with
    | none => exact hop_of_none hr hp
    | some node => simp [bind, Except.bind, Hop.goOn, Spot.place]
  | cons s segments ih =>
    have hs' : ∀ n, s = .name n → segments ++ rest ≠ [] := fun _ _ => by simp [hr]
    rw [List.cons_append, hop_cons hs']
    rcases last_cases s segments with ⟨n, rfl, rfl⟩ | hs
    · rw [hop_name, bind_assoc]
      congr 1
      funext _
      simp only [pass, passName, arrive, List.nil_append]
      split
      · simp [bind, Except.bind]
      · cases hn : root.get? (p ++ [n]) with
        | none => simp [target?, bind, Except.bind, Hop.goOn]
        | some node =>
          cases ht : target? (some node) with
          | none => simp [bind, Except.bind, Hop.goOn, Spot.place]
          | some target => simp [bind, Except.bind, Hop.goOn, Hop.through]
    · rw [hop_cons hs, bind_assoc]
      congr 1
      funext _
      cases s with
      | stay => exact ih
      | up => exact ih
      | name n =>
        simp only [pass, passName]
        split
        · rfl
        split
        · rfl
        split
        · simp [bind, Except.bind, Hop.goOn, Hop.through]
        · exact ih

/-- A path of two parts leads nowhere if its first part does not, and else to where the second part
leads from the place of the first. -/
theorem locate_append {rest : List Segment} (hr : rest ≠ []) (c : Bool) {hops : Nat}
    {segments : List Segment} :
    (∃ k, locate root .follow hops (.onward p segments c) = .error k ∧
        locate root last hops (.onward p (segments ++ rest) closed) = .error k) ∨
      ∃ s, locate root .follow hops (.onward p segments c) = .ok s ∧
        (s.node = none ∧
            locate root last hops (.onward p (segments ++ rest) closed) = .error .notFound ∨
          s.node ≠ none ∧ ∃ hops' < hops,
            locate root last hops (.onward p (segments ++ rest) closed)
              = locate root last (hops' + 1) (.onward s.place rest closed)) := by
  induction hops generalizing p segments c with
  | zero => exact .inl ⟨_, rfl, rfl⟩
  | succ hops ih =>
    rw [locate_succ, locate_succ, hop_append hr c]
    cases hhop : hop root .follow c p segments with
    | error k => exact .inl ⟨k, rfl, rfl⟩
    | ok r =>
      cases r with
      | spot s =>
        refine .inr ⟨s, locate_spot _ _ _ _, ?_⟩
        cases hn : s.node with
        | none => exact .inl ⟨rfl, by simp [bind, Except.bind, Hop.goOn, hn]⟩
        | some node =>
          refine .inr ⟨by simp, hops, Nat.lt_succ_self _, ?_⟩
          rw [locate_succ]
          simp [bind, Except.bind, Hop.goOn, hn]
      | onward q segments' c' =>
        rcases ih c' with ⟨k, hk, hk'⟩ | ⟨s, hs, hs'⟩
        · exact .inl ⟨k, hk, hk'⟩
        · refine .inr ⟨s, hs, hs'.imp_right fun ⟨hn, hops', hlt, he⟩ => ⟨hn, hops', by omega, he⟩⟩

/-! ## Ways without links -/

/-- Where components lead if there are no links on the way. -/
def settle : Place → List Segment → Place
  | p, [] => p
  | p, .stay :: rest => settle p rest
  | p, .up :: rest => settle p.dropLast rest
  | p, .name n :: rest => settle (p ++ [n]) rest

theorem settle_append (p : Place) (segments rest : List Segment) :
    settle p (segments ++ rest) = settle (settle p segments) rest := by
  induction segments generalizing p with
  | nil => rfl
  | cons s segments ih => cases s <;> exact ih _

theorem settle_names (p : Place) (names : List Name) :
    settle p (names.map .name) = p ++ names := by
  induction names generalizing p with
  | nil => exact (List.append_nil p).symm
  | cons n names ih => rw [List.map_cons, settle, ih, List.append_assoc, List.singleton_append]

/-- No component leads to a link. -/
def Linkless (root : Node) (p : Place) (segments : List Segment) : Prop :=
  ∀ before n, before ++ [.name n] <+: segments →
    target? (root.get? (settle p (before ++ [.name n]))) = none

theorem Linkless.rest {s : Segment} {rest : List Segment} (h : Linkless root p (s :: rest)) :
    Linkless root (settle p [s]) rest := by
  intro before n hb
  have := h (s :: before) n (List.cons_prefix_cons.mpr ⟨rfl, hb⟩)
  rwa [List.cons_append, ← List.singleton_append, settle_append] at this

theorem Linkless.first {rest : List Segment} (h : Linkless root p (.name n :: rest)) :
    target? (root.get? (p ++ [n])) = none :=
  h [] n (List.cons_prefix_cons.mpr ⟨rfl, List.nil_prefix⟩)

/-- A hop that meets no link leads where the components say. -/
theorem Linkless.hop {segments : List Segment} (h : Linkless root p segments) {r : Hop}
    (hr : hop root last closed p segments = .ok r) :
    ∃ s, r = .spot s ∧ s.place = settle p segments ∧ s.closed = closed := by
  rw [hop_eq_ok] at hr
  induction hr with
  | here hr => exact ⟨_, hr, by simp [Spot.place, settle], rfl⟩
  | name _ ha =>
    obtain ⟨-, -, ⟨_, -, ht, -⟩ | ⟨-, hr⟩⟩ := arrive_eq_ok.mp ha
    · exact absurd (ht.symm.trans h.first) (by simp)
    · exact ⟨_, hr, rfl, rfl⟩
  | stay _ _ ih | up _ _ ih | pass _ _ _ _ _ _ ih => exact ih h.rest
  | link _ _ _ ht _ => exact absurd (ht.symm.trans h.first) (by simp)

theorem Linkless.locate {hops : Nat} {segments : List Segment} (h : Linkless root p segments)
    {s : Spot} (hr : locate root last hops (.onward p segments closed) = .ok s) :
    s.place = settle p segments ∧ s.closed = closed := by
  cases hops with
  | zero => exact absurd hr (by simp [Volume.locate])
  | succ hops =>
    rw [locate_succ] at hr
    obtain ⟨r, hhop, hr⟩ := bind_eq_ok.mp hr
    obtain ⟨t, rfl, hp, hc⟩ := h.hop hhop
    rw [locate_spot] at hr
    exact Except.ok.inj hr ▸ ⟨hp, hc⟩

end Depot.Volume
