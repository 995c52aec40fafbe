import Depot.Proofs.Path
import Depot.Proofs.Volume.Access

/-!
# Where joined paths lead

A path that goes on behind another one leads to where the rest leads from the place of that one
(`exists_locate_of_find`). So where no links are on the way, it leads to that place with the
names behind it (`place_of_find_join`), and a path leads where its components say
(`Unlinked.place`).
-/

namespace Depot

open Text

namespace Path

/-! ## Routes -/

/-- What a piece asks for, if it is not empty. -/
def ask? (b : Bytes) : Option Segment :=
  if b = [] then none else some (.ofBytes b)

theorem route_eq (p : Path) : p.route = p.pieces.filterMap ask? := by
  rw [route]
  induction p.pieces with
  | nil => rfl
  | cons b bs ih => by_cases h : b = [] <;> simp [ask?, h, ← ih]

theorem route_join (p : Path) {q : Path} (hq : q.isAbsolute = false) :
    (p.join q).route = p.route ++ q.route := by
  simp only [route_eq, filterMap_pieces_join (show ask? [] = none from rfl) p hq]

theorem route_names {p : Path} {names : List Name} (h : p.pieces = names.map Name.bytes) :
    p.route = names.map .name := by
  have hask : ask? ∘ Name.bytes = some ∘ Segment.name := by
    funext n
    simp [ask?, n.ordinary.1]
  rw [route_eq, h, List.filterMap_map, hask, List.filterMap_eq_map]

theorem pieces_name (n : Name) : pieces ⟨n.bytes⟩ = [n].map Name.bytes :=
  splitOn_of_not_mem slash n.ordinary.2.2.2

theorem route_name (n : Name) : route ⟨n.bytes⟩ = [.name n] :=
  route_names (pieces_name n)

/-- A path that is empty or ends with a slash has an empty piece. -/
theorem nil_mem_pieces {p : Path} (h : p.bytes = [] ∨ p.isClosed = true) : [] ∈ p.pieces := by
  rcases h with h | h
  · simp [pieces, h, splitOn]
  · obtain ⟨bs, hbs⟩ := List.getLast?_eq_some_iff.mp (beq_iff_eq.mp h)
    simp [pieces, hbs, splitOn_append_sep, splitOn]

theorem nil_not_mem_pieces_of_names {p : Path} {names : List Name}
    (h : p.pieces = names.map Name.bytes) : [] ∉ p.pieces := by
  rw [h]
  intro hm
  obtain ⟨n, -, hn⟩ := List.mem_map.mp hm
  exact n.ordinary.1 hn

theorem bytes_children_ne_nil {p : Path} (h : p.bytes ≠ []) (names : List Name) :
    (names.foldl child p).bytes ≠ [] := by
  induction names generalizing p with
  | nil => exact h
  | cons n names ih =>
    refine ih ?_
    rw [child, bytes_join p (isAbsolute_name n)]
    simp [n.ordinary.1]

theorem isClosed_join (p : Path) {q : Path} (hq : q.bytes ≠ []) :
    (p.join q).isClosed = q.isClosed := by
  by_cases ha : q.isAbsolute = true
  · rw [join_of_isAbsolute p ha]
  · rw [isClosed, bytes_join p (Bool.eq_false_iff.mpr ha), List.getLast?_append_of_ne_nil _ hq]
    rfl

theorem bytes_prefix_join (p : Path) {q : Path} (hq : q.isAbsolute = false) :
    p.bytes <+: (p.join q).bytes := by
  rw [bytes_join p hq, opened]
  split
  · exact List.prefix_append _ _
  · rw [List.append_assoc]
    exact List.prefix_append _ _

/-- A path names the entry `n` of the directory that `root` leads to; on the way it may stay. -/
structure Enters (root : Path) (n : Name) (path : Path) : Prop where
  bytes_ne_nil : root.bytes ≠ []
  bytes_prefix : root.bytes <+: path.bytes
  isAbsolute : path.isAbsolute = root.isAbsolute
  route : ∃ k, path.route = root.route ++ (List.replicate k .stay ++ [.name n])

theorem enters_join {root q : Path} {n : Name} (hroot : root.bytes ≠ [])
    (hq : q.isAbsolute = false) (hr : q.route = [.name n]) : root.Enters n (root.join q) :=
  ⟨hroot, bytes_prefix_join root hq, isAbsolute_join hq,
    0, by rw [route_join root hq, hr]; rfl⟩

end Path

namespace Volume

variable {v : Volume} {root q : Path} {last : Last} {s : Spot} {ns : List Name} {n : Name}

/-! ## Names behind a path -/

/-- A path that goes on behind another one leads to where the rest leads from the place of that
one. -/
theorem exists_locate_of_find {path : Path} {rest : List Segment} (hroot : root.bytes ≠ [])
    (hbytes : root.bytes <+: path.bytes) (habs : path.isAbsolute = root.isAbsolute)
    (hroute : path.route = root.route ++ rest) (hne : rest ≠ []) (h : v.find last path = .ok s) :
    ∃ d hops, v.Leads root d ∧
      locate v.root last (hops + 1) (.onward d rest path.isClosed) = .ok s := by
  obtain ⟨⟨h0, hlen, -⟩, hl⟩ := find_eq_ok.mp h
  rw [hroute, habs] at hl
  obtain ⟨k, -, hk⟩ | ⟨t, ht, ⟨-, hn⟩ | ⟨hn, hops, -, hs⟩⟩ :=
    @locate_append v.root last path.isClosed (if root.isAbsolute then [] else v.here) _
      hne root.isClosed (maxLinks + 1) root.route
  · exact absurd (hl.symm.trans hk) (by simp)
  · exact absurd (hl.symm.trans hn) (by simp)
  · rw [hs] at hl
    refine ⟨t.place, hops, ?_, hl⟩
    have hfind : v.find .follow root = .ok t :=
      find_eq_ok.mpr ⟨⟨fun hm => h0 (hbytes.subset hm), hbytes.length_le.trans hlen, hroot⟩, ht⟩
    obtain ⟨node, hnode⟩ := Option.ne_none_iff_exists'.mp hn
    refine ⟨node, existing_eq_ok.mpr ⟨t, hfind, rfl, hnode, fun _ => ?_⟩⟩
    -- what the rest is looked up in is a directory
    rw [locate_succ] at hl
    obtain ⟨r, hhop, -⟩ := bind_eq_ok.mp hl
    obtain ⟨mode, hd, -⟩ := entered_eq_ok.mp (entered_of_hop hne hhop)
    have hface := face?_eq_some.mpr ⟨node, (sound_of_find hfind).get?_place hnode, rfl⟩
    exact isDirectory_iff.mpr ⟨mode, Option.some.inj (hface.symm.trans hd)⟩

/-- A path with names behind it leads to where the names lead from the place of the path. -/
theorem exists_locate_of_find_join (hroot : root.bytes ≠ []) (hq : q.isAbsolute = false)
    (hr : q.route = ns.map .name) (hne : ns ≠ []) (h : v.find last (root.join q) = .ok s) :
    ∃ d hops, v.Leads root d ∧
      locate v.root last (hops + 1) (.onward d (ns.map .name) (root.join q).isClosed) = .ok s :=
  exists_locate_of_find hroot (Path.bytes_prefix_join root hq) (Path.isAbsolute_join hq)
    (by rw [Path.route_join root hq, hr]) (by simpa using hne) h

/-- Where no links are on the way, names are put behind the place. -/
theorem place_of_find_join (hroot : root.bytes ≠ []) (hq : q.isAbsolute = false)
    (hr : q.route = ns.map .name) (hne : ns ≠ []) (h : v.find last (root.join q) = .ok s) :
    ∃ d, v.Leads root d ∧ ((∀ p target, v.face? (d ++ p) ≠ some (.link target)) →
      s.place = d ++ ns ∧ s.closed = (root.join q).isClosed) := by
  obtain ⟨d, hops, hd, hl⟩ := exists_locate_of_find_join hroot hq hr hne h
  refine ⟨d, hd, fun hlinks => ?_⟩
  have hless : Linkless v.root d (ns.map .name) := by
    intro before n hb
    rw [List.prefix_iff_eq_take.mp hb, ← List.map_take, settle_names]
    exact Option.eq_none_iff_forall_ne_some.mpr fun target ht =>
      hlinks _ target (target?_eq_some.mp ht)
  rw [hless.locate hl |>.1, settle_names]
  exact ⟨rfl, (hless.locate hl).2⟩

/-! ## Entries of the directory that a path leads to -/

/-- Components that stay make no difference before a name. -/
theorem hop_stays {node : Node} {closed : Bool} {p : Place} (k : Nat) :
    hop node last closed p (List.replicate k .stay ++ [.name n])
      = hop node last closed p [.name n] := by
  induction k with
  | zero => rfl
  | succ k ih =>
    rw [List.replicate_succ, List.cons_append, hop_cons (by simp), pass, ih, hop_name]
    cases entered (node.face? p) <;> rfl

/-- A path that names an entry leads to it, unless it follows a link there. -/
theorem spot_or_link_of_find {path : Path} (he : root.Enters n path)
    (h : v.find last path = .ok s) :
    ∃ d, v.Leads root d ∧ (s = ⟨d, some n, v.root.get? (d ++ [n]), path.isClosed⟩ ∨
      last ≠ .keep ∧ ∃ target, v.face? (d ++ [n]) = some (.link target)) := by
  obtain ⟨k, hroute⟩ := he.route
  obtain ⟨d, hops, hd, hl⟩ := exists_locate_of_find he.bytes_ne_nil he.bytes_prefix he.isAbsolute
    hroute (by simp) h
  refine ⟨d, hd, ?_⟩
  rw [locate_succ, hop_stays, hop_name, bind_assoc] at hl
  obtain ⟨⟨⟩, -, hl⟩ := bind_eq_ok.mp hl
  obtain ⟨r, hr, hl⟩ := bind_eq_ok.mp hl
  obtain ⟨-, -, ⟨target, hk, ht, -⟩ | ⟨-, rfl⟩⟩ := arrive_eq_ok.mp hr
  · exact .inr ⟨hk, target, target?_eq_some.mp ht⟩
  · rw [locate_spot] at hl
    exact .inl (Except.ok.inj hl).symm

/-- A path that is looked up as it is names an entry. -/
theorem spot_of_find_entry {path : Path} (he : root.Enters n path)
    (h : v.find .keep path = .ok s) :
    v.Leads root s.directory ∧ s.name = some n ∧ s.closed = path.isClosed := by
  obtain ⟨d, hd, rfl | ⟨hk, -⟩⟩ := spot_or_link_of_find he h
  · exact ⟨hd, rfl, rfl⟩
  · exact absurd rfl hk

/-- A path leads to the entry that it names, unless this is a link. -/
theorem leads_entry {path : Path} (he : root.Enters n path) {p : Place} (h : v.Leads path p) :
    ∃ d, v.Leads root d ∧ (p = d ++ [n] ∨ ∃ target, v.face? (d ++ [n]) = some (.link target)) := by
  obtain ⟨node, h⟩ := h
  obtain ⟨s, hs, rfl, -, -⟩ := existing_eq_ok.mp h
  obtain ⟨d, hd, rfl | ⟨-, hlink⟩⟩ := spot_or_link_of_find he hs
  · exact ⟨d, hd, .inl rfl⟩
  · exact ⟨d, hd, .inr hlink⟩

/-- The last name of a path that is looked up as it is names an entry. -/
theorem spot_of_find_join (hroot : root.bytes ≠ []) (hq : q.isAbsolute = false)
    (hr : q.route = [.name n]) (h : v.find .keep (root.join q) = .ok s) :
    v.Leads root s.directory ∧ s.name = some n ∧ s.closed = (root.join q).isClosed :=
  spot_of_find_entry (Path.enters_join hroot hq hr) h

/-- The last name of a path leads to the entry, unless this is a link. -/
theorem leads_join (hroot : root.bytes ≠ []) (hq : q.isAbsolute = false)
    (hr : q.route = [.name n]) {p : Place} (h : v.Leads (root.join q) p) :
    ∃ d, v.Leads root d ∧ (p = d ++ [n] ∨ ∃ target, v.face? (d ++ [n]) = some (.link target)) :=
  leads_entry (Path.enters_join hroot hq hr) h

/-! ## What lookups agree on -/

theorem arrive_follow {closed : Bool} {p : Place} {node : Option Node} {r : Hop}
    (h : arrive last closed p n node = .ok r)
    (hr : r = .spot ⟨p, some n, node, closed⟩ → target? node = none) :
    arrive .follow closed p n node = .ok r := by
  obtain ⟨-, hl, ⟨target, -, ht, hspot⟩ | ⟨-, hspot⟩⟩ := arrive_eq_ok.mp h
  · exact arrive_eq_ok.mpr ⟨by simp, hl, .inl ⟨target, by simp, ht, hspot⟩⟩
  · exact arrive_eq_ok.mpr ⟨by simp, hl, .inr ⟨.inr (hr hspot), hspot⟩⟩

theorem hop_follow {root : Node} {closed : Bool} {p : Place} {segments : List Segment} {r : Hop}
    (h : hop root last closed p segments = .ok r)
    (hr : ∀ s n, r = .spot s → s.name = some n → target? s.node = none) :
    hop root .follow closed p segments = .ok r := by
  rw [hop_eq_ok] at h ⊢
  induction h with
  | here hspot => exact .here hspot
  | name he ha => exact .name he (arrive_follow ha fun hspot => hr _ _ hspot rfl)
  | stay he _ ih => exact .stay he ih
  | up he _ ih => exact .up he ih
  | link hne he hl ht hthrough => exact .link hne he hl ht hthrough
  | pass hne he hl hsome ht _ ih => exact .pass hne he hl hsome ht ih

theorem locate_follow {root : Node} {closed : Bool} {p : Place} {hops : Nat}
    {segments : List Segment} (h : locate root last hops (.onward p segments closed) = .ok s)
    (hs : ∀ n, s.name = some n → target? s.node = none) :
    locate root .follow hops (.onward p segments closed) = .ok s := by
  induction h using locate_induction with
  | found _ hhop =>
    refine bind_eq_ok.mpr ⟨_, hop_follow hhop fun t n ht hn => ?_, locate_spot _ _ _ _⟩
    cases ht
    exact hs n hn
  | onward _ _ hhop ih =>
    exact bind_eq_ok.mpr ⟨_, hop_follow hhop fun t n ht => absurd ht (by simp), ih⟩

/-- What is found is found by following links too, unless it is a link itself. -/
theorem find_follow {path : Path} (h : v.find last path = .ok s)
    (hs : ∀ n, s.name = some n → target? s.node = none) : v.find .follow path = .ok s :=
  find_eq_ok.mpr ⟨(find_eq_ok.mp h).1, locate_follow (find_eq_ok.mp h).2 hs⟩

/-- What is found to be made or emptied is found again. -/
theorem find_follow_of_create {path : Path} (h : v.find .create path = .ok s) :
    v.find .follow path = .ok s :=
  find_follow h fun n hn => (sound_of_find h).followed n hn (by decide)

theorem leads_of_existing {path : Path} {p : Place} {node : Node}
    (h : v.existing last path = .ok (p, node)) (hnode : target? (some node) = none) :
    v.existing .follow path = .ok (p, node) := by
  obtain ⟨s, hs, hp, hn, hc⟩ := existing_eq_ok.mp h
  exact existing_eq_ok.mpr ⟨s, find_follow hs fun _ _ => hn ▸ hnode, hp, hn, hc⟩

/-! ## Names one by one -/

/-- A path with names behind it, one by one, leads to the place with the names behind it where no
links are on the way. -/
theorem place_of_leads_children {p q : Place} {names : List Name} (hroot : v.Leads root p)
    (hlinks : ∀ r target, r <+: names → v.face? (p ++ r) ≠ some (.link target))
    (h : v.Leads (names.foldl Path.child root) q) : q = p ++ names := by
  induction names using List.reverseRecOn generalizing q with
  | nil => rw [List.append_nil]; exact h.inj hroot
  | append_singleton names n ih =>
    rw [List.foldl_append] at h
    obtain ⟨d, hd, hq⟩ := leads_join (Path.bytes_children_ne_nil hroot.bytes_ne_nil names)
      (Path.isAbsolute_name n) (Path.route_name n) h
    have hd' := ih (fun r target hr => hlinks r target (hr.trans (List.prefix_append _ _))) hd
    rw [← List.append_assoc, ← hd']
    refine hq.resolve_right fun ⟨target, ht⟩ => hlinks _ target List.prefix_rfl ?_
    rwa [← List.append_assoc, ← hd']

/-! ## Paths without links -/

/-- No component of a path leads to a link. -/
def Unlinked (v : Volume) (path : Path) : Prop :=
  Linkless v.root (if path.isAbsolute then [] else v.here) path.route

/-- The place that a path leads to where no links are on the way. -/
def settled (path : Path) (here : Place) : Place :=
  settle (if path.isAbsolute then [] else here) path.route

theorem settled_join (p : Path) {q : Path} (hq : q.isAbsolute = false) (here : Place) :
    settled (p.join q) here = settle (settled p here) q.route := by
  rw [settled, Path.isAbsolute_join hq, Path.route_join p hq, settle_append]
  rfl

theorem Unlinked.place {path : Path} (h : v.Unlinked path) (hs : v.find last path = .ok s) :
    s.place = settled path v.here :=
  (h.locate (find_eq_ok.mp hs).2).1

theorem Unlinked.place_of_leads {path : Path} {p : Place} (h : v.Unlinked path)
    (hp : v.Leads path p) : p = settled path v.here := by
  obtain ⟨node, hn⟩ := hp
  obtain ⟨s, hs, rfl, -⟩ := existing_eq_ok.mp hn
  exact h.place hs

theorem Unlinked.steady {v' : Volume} {path : Path} (h : v.Unlinked path) (hv : Steady v v') :
    v'.Unlinked path := by
  intro before n hb
  rw [hv.here, hv.target?]
  exact h before n hb

end Volume

end Depot
