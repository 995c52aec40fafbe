import Depot.Path
import Depot.Proofs.Text.Utf8
import Mathlib.Data.List.DropRight

/-!
# What a path says

`Path.steps` are the components of a path without the leading `.`, which asks for nothing. Every
operation on paths is an operation on steps:

* `steps_join`: what is joined comes behind, unless it is absolute,
* `steps_parent?`: the parent is without the last step,
* `steps_withExtension`: an extension changes the last step only.

`Path.Inside base p` says that `p` is `base` followed by names only: no step goes up, and `base` is
not replaced by an absolute path. The steps of a path that a text spells are read off the parts of
the text (`steps_ofString`).
-/

namespace Depot

open Text

/-! ## Segments -/

/-- The step that a segment makes, if it does not stay. -/
def Segment.step? : Segment → Option Component
  | .stay => none
  | .up => some .up
  | .name n => some (.name n)

/-- The step that a piece makes, if it does not stay. -/
def Path.step? (b : Bytes) : Option Component :=
  (Segment.ofBytes b).step?

theorem Name.ofBytes?_bytes (n : Name) : Name.ofBytes? n.bytes = some n :=
  dif_pos n.ordinary

theorem Name.ofBytes?_eq_some {b : Bytes} {n : Name} (h : Name.ofBytes? b = some n) :
    n.bytes = b := by
  unfold Name.ofBytes? at h
  split at h
  · exact congrArg Name.bytes (Option.some.inj h).symm
  · exact absurd h (by simp)

@[simp] theorem Segment.ofBytes_bytes (n : Name) : Segment.ofBytes n.bytes = .name n := by
  simp [Segment.ofBytes, n.ordinary.2.2.1, Name.ofBytes?_bytes]

theorem Segment.ofBytes_eq_name {b : Bytes} {n : Name} (h : Segment.ofBytes b = .name n) :
    n.bytes = b := by
  unfold Segment.ofBytes at h
  split at h
  · exact absurd h (by simp)
  · split at h
    · next m hm =>
      rw [← Segment.name.inj h]
      exact Name.ofBytes?_eq_some hm
    · exact absurd h (by simp)

/-- A piece stays just if it is empty or a dot. -/
theorem Segment.ofBytes_eq_stay {b : Bytes} (hb : slash ∉ b) :
    Segment.ofBytes b = .stay ↔ b = [] ∨ b = [dot] := by
  unfold Segment.ofBytes Name.ofBytes?
  by_cases h2 : b = [dot, dot]
  · simp [h2]
  · by_cases h0 : b = []
    · simp [h0]
    · by_cases h1 : b = [dot]
      · simp [h1]
      · simp [h0, h1, h2, hb]

namespace Path

@[simp] theorem step?_nil : step? [] = none := rfl

@[simp] theorem step?_dot : step? [dot] = none := rfl

@[simp] theorem step?_bytes (n : Name) : step? n.bytes = some (.name n) := by
  simp [step?, Segment.step?]

theorem step?_eq_none {b : Bytes} (hb : slash ∉ b) : step? b = none ↔ b = [] ∨ b = [dot] := by
  rw [← Segment.ofBytes_eq_stay hb, step?]
  cases Segment.ofBytes b <;> simp [Segment.step?]

theorem step?_eq_name {b : Bytes} {n : Name} (h : step? b = some (.name n)) : n.bytes = b := by
  refine Segment.ofBytes_eq_name ?_
  unfold step? at h
  cases hs : Segment.ofBytes b with
  | stay => simp [hs, Segment.step?] at h
  | up => simp [hs, Segment.step?] at h
  | name m => simpa [hs, Segment.step?] using h

theorem step?_eq_up {b : Bytes} : step? b = some .up ↔ b = [dot, dot] := by
  unfold step? Segment.ofBytes
  by_cases h : b = [dot, dot]
  · simp [h, Segment.step?]
  · rw [if_neg h]
    cases Name.ofBytes? b <;> simp [h, Segment.step?]

theorem step?_ne_current (b : Bytes) : step? b ≠ some .current := by
  unfold step?
  cases Segment.ofBytes b <;> simp [Segment.step?]

theorem step?_ne_root (b : Bytes) : step? b ≠ some .root := by
  unfold step?
  cases Segment.ofBytes b <;> simp [Segment.step?]

/-! ## Pieces -/

theorem isAbsolute_iff {p : Path} : p.isAbsolute = true ↔ ∃ bs, p.bytes = slash :: bs := by
  simp [isAbsolute, List.head?_eq_some_iff]

theorem pieces_of_isAbsolute {p : Path} (h : p.isAbsolute = true) :
    ∃ rest, rest ≠ [] ∧ p.pieces = [] :: rest := by
  obtain ⟨bs, hbs⟩ := isAbsolute_iff.mp h
  exact ⟨splitOn slash bs, splitOn_ne_nil _ _, by simp [pieces, hbs, splitOn]⟩

theorem pieces_ne_nil (p : Path) : p.pieces ≠ [] :=
  splitOn_ne_nil _ _

theorem slash_not_mem_of_mem_pieces {p : Path} {b : Bytes} (h : b ∈ p.pieces) : slash ∉ b :=
  not_mem_of_mem_splitOn slash h

/-- What pieces say that is not said by empty ones is said by both sides of a join. -/
theorem filterMap_pieces_join {β : Type} {g : Bytes → Option β} (hg : g [] = none) (p : Path)
    {q : Path} (hq : q.isAbsolute = false) :
    (p.join q).pieces.filterMap g = p.pieces.filterMap g ++ q.pieces.filterMap g := by
  unfold join
  rw [if_neg (by simp [hq])]
  split
  · next h =>
    rcases h with h | h
    · simp [pieces, h, splitOn, hg]
    · obtain ⟨ps, hps⟩ := List.getLast?_eq_some_iff.mp h
      simp [pieces, hps, splitOn_append_sep, splitOn, hg]
  · simp [pieces, splitOn_append_sep]

theorem isAbsolute_join {p q : Path} (hq : q.isAbsolute = false) :
    (p.join q).isAbsolute = p.isAbsolute := by
  unfold join
  rw [if_neg (by simp [hq])]
  cases hp : p.bytes with
  | nil =>
    rw [if_pos (Or.inl rfl)]
    simpa [isAbsolute, hp] using hq
  | cons b bs => split <;> simp [isAbsolute, hp]

/-- The octets of a path with a separator behind them, if they need one. -/
def opened (p : Path) : Bytes :=
  if p.bytes = [] ∨ p.bytes.getLast? = some slash then p.bytes else p.bytes ++ [slash]

theorem bytes_join (p : Path) {q : Path} (hq : q.isAbsolute = false) :
    (p.join q).bytes = p.opened ++ q.bytes := by
  unfold join opened
  rw [if_neg (by simp [hq])]
  split <;> simp

theorem join_of_isAbsolute (p : Path) {q : Path} (hq : q.isAbsolute = true) : p.join q = q :=
  if_pos hq

theorem opened_join (p : Path) {q : Path} (hne : q.bytes ≠ []) :
    (p.join q).opened = if q.isAbsolute then q.opened else p.opened ++ q.opened := by
  by_cases hq : q.isAbsolute = true
  · rw [join_of_isAbsolute p hq, if_pos hq]
  · have hlast : (p.opened ++ q.bytes).getLast? = q.bytes.getLast? :=
      List.getLast?_append_of_ne_nil _ hne
    rw [if_neg hq]
    conv_lhs => rw [opened, bytes_join p (Bool.eq_false_iff.mpr hq), hlast]
    simp only [opened.eq_def q, List.append_eq_nil_iff, hne, and_false, false_or]
    split <;> simp

/-- Joining is associative; the middle path has to say something. -/
theorem join_join (p : Path) {q r : Path} (hne : q.bytes ≠ []) (hr : r.isAbsolute = false) :
    p.join (q.join r) = (p.join q).join r := by
  have habs : (q.join r).isAbsolute = q.isAbsolute := isAbsolute_join hr
  rw [Path.mk.injEq, bytes_join _ hr, opened_join p hne]
  by_cases hq : q.isAbsolute = true
  · rw [join_of_isAbsolute p (habs.trans hq), if_pos hq, bytes_join _ hr]
  · rw [bytes_join p (habs.trans (Bool.eq_false_iff.mpr hq)), if_neg hq, bytes_join _ hr,
      List.append_assoc]

/-! ## Steps -/

/-- The components of a path without a leading `.`. -/
def steps (p : Path) : List Component :=
  p.components.filter (· ≠ .current)

theorem components_eq {p : Path} {first : Bytes} {rest : List Bytes}
    (h : p.pieces = first :: rest) :
    p.components = p.leading first ++ rest.filterMap step? := by
  unfold components
  rw [h]
  simp only [List.filterMap_map]
  rfl

theorem filter_leading {p : Path} {first : Bytes} {rest : List Bytes}
    (h : p.pieces = first :: rest) :
    (p.leading first).filter (· ≠ .current)
      = (if p.isAbsolute then [.root] else []) ++ (step? first).toList := by
  unfold leading
  by_cases ha : p.isAbsolute = true
  · obtain ⟨rest', -, hr⟩ := pieces_of_isAbsolute ha
    rw [h] at hr
    simp [ha, (List.cons.inj hr).1]
  · by_cases hd : first = [dot]
    · simp [ha, hd]
    · simp only [ha, hd, if_false, Bool.false_eq_true, List.nil_append, step?]
      cases Segment.ofBytes first <;> simp [Segment.step?]

theorem steps_eq (p : Path) :
    p.steps = (if p.isAbsolute then [.root] else []) ++ p.pieces.filterMap step? := by
  cases hp : p.pieces with
  | nil => exact absurd hp p.pieces_ne_nil
  | cons first rest =>
    have hrest : (rest.filterMap step?).filter (· ≠ .current) = rest.filterMap step? := by
      refine List.filter_eq_self.mpr fun c hc => decide_eq_true fun he => ?_
      obtain ⟨b, -, hb⟩ := List.mem_filterMap.mp hc
      exact step?_ne_current b (he ▸ hb)
    rw [steps, components_eq hp, List.filter_append, filter_leading hp, hrest, List.append_assoc,
      List.filterMap_cons]
    cases step? first <;> rfl

theorem steps_of_relative {p : Path} (h : p.isAbsolute = false) :
    p.steps = p.pieces.filterMap step? := by
  simp [steps_eq, h]

/-- What is joined comes behind, unless it is absolute. -/
theorem steps_join (p : Path) {q : Path} (hq : q.isAbsolute = false) :
    (p.join q).steps = p.steps ++ q.steps := by
  simp [steps_eq, isAbsolute_join hq, filterMap_pieces_join step?_nil p hq, hq]

theorem isAbsolute_name (n : Name) : isAbsolute ⟨n.bytes⟩ = false := by
  rw [Bool.eq_false_iff, ne_eq, isAbsolute_iff]
  rintro ⟨bs, hbs⟩
  exact n.ordinary.2.2.2 (by rw [show n.bytes = _ from hbs]; exact List.mem_cons_self)

theorem steps_name (n : Name) : steps ⟨n.bytes⟩ = [.name n] := by
  rw [steps_of_relative (isAbsolute_name n)]
  simp [pieces, splitOn_of_not_mem slash n.ordinary.2.2.2]

@[simp] theorem steps_child (p : Path) (n : Name) : (p.child n).steps = p.steps ++ [.name n] := by
  rw [child, steps_join p (isAbsolute_name n), steps_name]

/-! ## Paths made of pieces -/

theorem bytes_eq_joinWith (p : Path) : p.bytes = joinWith slash p.pieces :=
  (joinWith_splitOn slash p.bytes).symm

theorem pieces_joinWith {ps : List Bytes} (hne : ps ≠ []) (h : ∀ b ∈ ps, slash ∉ b) :
    pieces ⟨joinWith slash ps⟩ = ps :=
  splitOn_joinWith slash hne h

/-- A path is absolute just if its first piece is empty and not the only one. -/
theorem isAbsolute_iff_pieces {p : Path} {first : Bytes} {rest : List Bytes}
    (h : p.pieces = first :: rest) : p.isAbsolute = true ↔ first = [] ∧ rest ≠ [] := by
  constructor
  · intro ha
    obtain ⟨rest', hne, hr⟩ := pieces_of_isAbsolute ha
    obtain ⟨rfl, rfl⟩ := List.cons.inj (h.symm.trans hr)
    exact ⟨rfl, hne⟩
  · rintro ⟨rfl, hne⟩
    exact isAbsolute_iff.mpr ⟨_, by rw [p.bytes_eq_joinWith, h, joinWith_nil_cons slash hne]⟩

theorem steps_of_pieces {p : Path} {first : Bytes} {rest : List Bytes}
    (h : p.pieces = first :: rest) :
    p.steps = (if first = [] ∧ rest ≠ [] then [.root] else [])
      ++ (first :: rest).filterMap step? := by
  simp only [steps_eq, isAbsolute_iff_pieces h, h]

/-- Whether a piece is one of those that `trimEnd` takes away. -/
def trims (b : Bytes) : Bool :=
  b == [] || b == [dot]

theorem trimEnd_eq (ps : List Bytes) : trimEnd ps = ps.rdropWhile trims := rfl

theorem step?_of_trims {b : Bytes} (h : trims b = true) : step? b = none := by
  simp only [trims, Bool.or_eq_true, beq_iff_eq] at h
  rcases h with rfl | rfl <;> rfl

/-- What is taken away at the end says nothing. -/
theorem filterMap_trimEnd (ps : List Bytes) :
    (trimEnd ps).filterMap step? = ps.filterMap step? := by
  have h : (ps.rtakeWhile trims).filterMap step? = [] :=
    List.filterMap_eq_nil_iff.mpr fun b hb => step?_of_trims (List.mem_rtakeWhile_imp hb)
  conv_rhs => rw [← List.rdropWhile_append_rtakeWhile (p := trims) (l := ps),
    List.filterMap_append, h, List.append_nil]
  rw [trimEnd_eq]

theorem mem_of_mem_trimEnd {ps : List Bytes} {b : Bytes} (h : b ∈ trimEnd ps) : b ∈ ps :=
  (List.rdropWhile_prefix trims ps).subset h

/-- The last step of a path is that of its last piece that is not trimmed, unless this is the first
piece. -/
theorem steps_cases {p : Path} {first : Bytes} {rest : List Bytes} (h : p.pieces = first :: rest) :
    (trimEnd rest = [] ∧
        p.steps = (if p.isAbsolute then [.root] else []) ++ (step? first).toList) ∨
      ∃ kept last c, trimEnd rest = kept ++ [last] ∧ step? last = some c ∧
        p.steps = (if p.isAbsolute then [.root] else [])
          ++ (first :: kept).filterMap step? ++ [c] := by
  have hsteps : p.steps
      = (if p.isAbsolute then [.root] else []) ++ (first :: trimEnd rest).filterMap step? := by
    rw [steps_eq, h, List.filterMap_cons, List.filterMap_cons, filterMap_trimEnd]
  rcases List.eq_nil_or_concat' (trimEnd rest) with hk | ⟨kept, last, hk⟩
  · refine .inl ⟨hk, ?_⟩
    rw [hsteps, hk, List.filterMap_cons]
    cases step? first <;> rfl
  · have hne : rest.rdropWhile trims ≠ [] := by rw [← trimEnd_eq, hk]; simp
    have hlast := List.rdropWhile_last_not trims rest hne
    simp only [← trimEnd_eq, hk, List.getLast_concat] at hlast
    have hmem : last ∈ p.pieces :=
      h ▸ List.mem_cons_of_mem _ (mem_of_mem_trimEnd (hk ▸ List.mem_concat_self))
    have hs : slash ∉ last := slash_not_mem_of_mem_pieces hmem
    obtain ⟨c, hc⟩ : ∃ c, step? last = some c := by
      rw [← Option.ne_none_iff_exists', Ne, step?_eq_none hs]
      simpa [trims] using hlast
    refine .inr ⟨kept, last, c, hk, hc, ?_⟩
    rw [hsteps, hk, ← List.cons_append, List.filterMap_append, List.append_assoc,
      List.filterMap_cons_some hc, List.filterMap_nil]

/-- The steps of a path that is put together from pieces. -/
theorem steps_ofPieces {absolute : Bool} {first : Bytes} {rest : List Bytes}
    (ha : absolute = true ↔ first = []) (hslash : ∀ b ∈ first :: rest, slash ∉ b) :
    (ofPieces absolute first rest).steps
      = (if absolute then [.root] else []) ++ (first :: rest).filterMap step? := by
  unfold ofPieces
  split
  · next h =>
    rw [ha.mp h.1, h.2, if_pos h.1]
    rfl
  · next h =>
    rw [steps_of_pieces (pieces_joinWith (List.cons_ne_nil _ _) hslash)]
    congr 1
    refine if_congr ?_ rfl rfl
    rw [ha]
    exact and_iff_left_of_imp fun hf hr => h ⟨ha.mpr hf, hr⟩

/-- The parent of a path is without its last step. -/
theorem steps_parent? {p q : Path} (h : p.parent? = some q) : q.steps = p.steps.dropLast := by
  obtain ⟨first, rest, hp⟩ := List.exists_cons_of_ne_nil p.pieces_ne_nil
  unfold parent? at h
  simp only [hp] at h
  obtain ⟨hk, hs⟩ | ⟨kept, last, c, hk, hc, hs⟩ := steps_cases hp <;> rw [hs] <;>
    simp only [hk] at h
  · split at h
    · exact absurd h (by simp)
    · next hrel =>
      rw [← Option.some.inj h, if_neg fun ha => hrel (.inl ha)]
      cases step? first <;> rfl
  · split at h
    · next he => exact absurd he (by simp)
    · have hrest : rest ≠ [] := fun he => by rw [he] at hk; exact absurd hk (by simp [trimEnd])
      have ha : p.isAbsolute = true ↔ first = [] := by
        rw [isAbsolute_iff_pieces hp]
        exact and_iff_left hrest
      have hslash : ∀ b ∈ first :: trimEnd kept, slash ∉ b := by
        intro b hb
        refine slash_not_mem_of_mem_pieces (p := p) (hp ▸ ?_)
        rcases List.mem_cons.mp hb with rfl | hb
        · exact List.mem_cons_self
        · exact List.mem_cons_of_mem _ (mem_of_mem_trimEnd
            (hk ▸ List.mem_append_left _ (mem_of_mem_trimEnd hb)))
      rw [← Option.some.inj h, List.dropLast_concat, steps_ofPieces ha hslash,
        List.dropLast_concat, List.filterMap_cons, List.filterMap_cons, filterMap_trimEnd]

/-- The last piece of a path that ends with a name is the name. -/
theorem lastPiece?_of_steps {p : Path} {steps : List Component} {n : Name}
    (h : p.steps = steps ++ [.name n]) :
    (p.lastPiece? = some ([], n.bytes) ∧ steps = []) ∨
      ∃ first kept, p.lastPiece? = some (first :: kept, n.bytes) ∧
        (∀ b ∈ first :: kept, slash ∉ b) ∧ (p.isAbsolute = true ↔ first = []) ∧
        steps = (if p.isAbsolute then [.root] else []) ++ (first :: kept).filterMap step? := by
  obtain ⟨first, rest, hp⟩ := List.exists_cons_of_ne_nil p.pieces_ne_nil
  obtain ⟨hk, hs⟩ | ⟨kept, last, c, hk, hc, hs⟩ := steps_cases hp
  · -- the only piece that counts is the first one, and it is a name
    have ha : p.isAbsolute = false := by
      refine Bool.eq_false_iff.mpr fun ha => ?_
      rw [hs, if_pos ha, ((isAbsolute_iff_pieces hp).mp ha).1] at h
      exact absurd (congrArg List.getLast? h) (by simp)
    rw [hs, if_neg (by simp [ha]), List.nil_append] at h
    obtain ⟨hn, rfl⟩ : step? first = some (.name n) ∧ steps = [] := by
      cases hf : step? first with
      | none => rw [hf] at h; exact absurd h (by simp)
      | some c =>
        rw [hf] at h
        replace h : [] ++ [c] = steps ++ [.name n] := h
        obtain ⟨h', hcn⟩ := List.append_inj' h rfl
        exact ⟨congrArg some (List.head_eq_of_cons_eq hcn), h'.symm⟩
    exact .inl ⟨by simp [lastPiece?, hp, hk, ha, step?_eq_name hn], rfl⟩
  · obtain ⟨hsteps, hcn⟩ := List.append_inj' (hs.symm.trans h) rfl
    have hb := step?_eq_name (hc.trans (congrArg some (List.head_eq_of_cons_eq hcn)))
    refine .inr ⟨first, kept, ?_, fun b hb => ?_, ?_, hsteps.symm⟩
    · simp only [lastPiece?, hp, hk, List.getLast?_concat, List.dropLast_concat, hb]
    · refine slash_not_mem_of_mem_pieces (p := p) (hp ▸ ?_)
      rcases List.mem_cons.mp hb with rfl | hb
      · exact List.mem_cons_self
      · exact List.mem_cons_of_mem _ (mem_of_mem_trimEnd (hk ▸ List.mem_append_left _ hb))
    · rw [isAbsolute_iff_pieces hp]
      exact and_iff_left fun he => by rw [he] at hk; exact absurd hk (by simp [trimEnd])

theorem fileName?_of_steps {p : Path} {steps : List Component} {n : Name}
    (h : p.steps = steps ++ [.name n]) : p.fileName? = some n := by
  obtain ⟨hl, -⟩ | ⟨first, kept, hl, -⟩ := lastPiece?_of_steps h
  · simp [fileName?, hl, Name.ofBytes?_bytes]
  · simp [fileName?, hl, Name.ofBytes?_bytes]

theorem withExtension_eq {p : Path} {before : List Bytes} {n m : Name} {ext : Bytes}
    (h : p.lastPiece? = some (before, n.bytes))
    (hm : m.bytes = (Name.stemAndExtension n.bytes).1 ++ dot :: ext) :
    p.withExtension ext = ⟨joinWith slash (before ++ [m.bytes])⟩ := by
  simp [withExtension, h, Name.ofBytes?_bytes, hm]

/-- A path without a file name takes no extension. -/
theorem withExtension_of_fileName?_eq_none {p : Path} (h : p.fileName? = none) (ext : Bytes) :
    p.withExtension ext = p := by
  unfold withExtension
  split
  · rfl
  · next before last hl =>
    have hlast : Name.ofBytes? last = none := by simpa [fileName?, hl] using h
    rw [hlast]
    rfl

/-- An extension changes the last step of a path only. -/
theorem steps_withExtension {p : Path} {steps : List Component} {n m : Name} {ext : Bytes}
    (h : p.steps = steps ++ [.name n])
    (hm : m.bytes = (Name.stemAndExtension n.bytes).1 ++ dot :: ext) :
    (p.withExtension ext).steps = steps ++ [.name m] := by
  obtain ⟨hl, rfl⟩ | ⟨first, kept, hl, hslash, ha, rfl⟩ := lastPiece?_of_steps h
  · rw [withExtension_eq hl hm]
    exact steps_name m
  · have hslash' : ∀ b ∈ first :: (kept ++ [m.bytes]), slash ∉ b := by
      intro b hb
      rcases List.mem_append.mp (List.cons_append ▸ hb) with hb | hb
      · exact hslash b hb
      · exact List.mem_singleton.mp hb ▸ m.ordinary.2.2.2
    rw [withExtension_eq hl hm, List.cons_append,
      steps_of_pieces (pieces_joinWith (List.cons_ne_nil _ _) hslash'), ← List.cons_append,
      List.filterMap_append, ← List.append_assoc]
    simp [ha]

/-! ## Paths that texts spell -/

theorem pieces_ofString (s : String) :
    (ofString s).pieces = (splitOn '/' s.toList).map fun part => encode (String.ofList part) :=
  splitOn_encode (c := '/') (by decide) s

/-- The step that a part of a text makes. -/
def stepOf (part : List Char) : Option Component :=
  step? (encode (String.ofList part))

theorem isAbsolute_ofString (s : String) :
    (ofString s).isAbsolute = true ↔ s.toList.head? = some '/' := by
  rw [isAbsolute, ofString, encode]
  cases hs : s.toList with
  | nil => simp
  | cons c cs =>
    by_cases hc : c.toNat < 0x80
    · have : UInt8.ofNat c.toNat = slash ↔ c = '/' := by
        rw [← UInt8.toNat_inj, UInt8.toNat_ofNat', ← Char.toNat_inj]
        have : slash.toNat = '/'.toNat := rfl
        omega
      simp [utf8EncodeChar_ascii hc, this]
    · obtain ⟨b, bs, hb⟩ := List.exists_cons_of_ne_nil (String.utf8EncodeChar_ne_nil (c := c))
      have hle := le_of_mem_utf8EncodeChar (Nat.not_lt.mp hc) (hb ▸ List.mem_cons_self)
      have hbs : b ≠ slash := fun e => absurd hle (e ▸ by decide)
      have hcs : c ≠ '/' := fun e => hc (e ▸ by decide)
      simp [hb, hbs, hcs]

/-- A text behind a slash spells a path behind another one. -/
theorem ofString_append {s t : String} (hs : encode s ≠ [])
    (hlast : (encode s).getLast? ≠ some slash) (ht : (ofString t).isAbsolute = false) :
    ofString (s ++ "/" ++ t) = (ofString s).join (ofString t) := by
  rw [Path.mk.injEq, bytes_join _ ht, opened, ofString, ofString, ofString, encode_append,
    encode_append, if_neg (by simp [hs, hlast])]
  rfl

theorem steps_ofString (s : String) :
    (ofString s).steps = (if (ofString s).isAbsolute then [.root] else [])
      ++ (splitOn '/' s.toList).filterMap stepOf := by
  rw [steps_eq, pieces_ofString, List.filterMap_map]
  rfl

/-- A part stays just if it is empty or a dot. -/
theorem stepOf_eq_none {part : List Char} (h : '/' ∉ part) :
    stepOf part = none ↔ part = [] ∨ part = ['.'] := by
  have hs : slash ∉ encode (String.ofList part) := by
    intro hm
    exact h (by simpa using (mem_encode_ascii (c := '/') (by decide)).mp hm)
  rw [stepOf, step?_eq_none hs, encode_eq_nil_iff, show [dot] = encode "." from rfl,
    encode_injective.eq_iff, ← String.toList_inj, ← String.toList_inj, String.toList_ofList]
  rfl

theorem stepOf_eq_up {part : List Char} : stepOf part = some .up ↔ part = ['.', '.'] := by
  rw [stepOf, step?_eq_up, show [dot, dot] = encode ".." from rfl, encode_injective.eq_iff,
    ← String.toList_inj, String.toList_ofList]
  rfl

theorem stepOf_eq_name {part : List Char} {n : Name} (h : stepOf part = some (.name n)) :
    n.bytes = encode (String.ofList part) :=
  step?_eq_name h

theorem stepOf_ne_current (part : List Char) : stepOf part ≠ some .current :=
  step?_ne_current _

theorem stepOf_ne_root (part : List Char) : stepOf part ≠ some .root :=
  step?_ne_root _

/-! ## Paths inside others -/

/-- Components are names just if none of them is anything else. -/
theorem exists_names_iff {cs : List Component} :
    (∃ names : List Name, cs = names.map .name) ↔ .root ∉ cs ∧ .current ∉ cs ∧ .up ∉ cs := by
  constructor
  · rintro ⟨names, rfl⟩
    simp
  · rintro ⟨hr, hc, hu⟩
    refine ⟨cs.filterMap fun | .name n => some n | _ => none, ?_⟩
    induction cs with
    | nil => rfl
    | cons c cs ih =>
      simp only [List.mem_cons, not_or] at hr hc hu
      cases c with
      | root => exact absurd rfl hr.1
      | current => exact absurd rfl hc.1
      | up => exact absurd rfl hu.1
      | name n => simpa using ih hr.2 hc.2 hu.2

/-- A path is another one followed by names only. -/
def Inside (base p : Path) : Prop :=
  ∃ names : List Name, p.steps = base.steps ++ names.map .name

theorem Inside.refl (base : Path) : Inside base base :=
  ⟨[], by simp⟩

theorem Inside.trans {base p q : Path} (h : Inside base p) (h' : Inside p q) : Inside base q := by
  obtain ⟨names, hn⟩ := h
  obtain ⟨names', hn'⟩ := h'
  exact ⟨names ++ names', by simp [hn', hn]⟩

end Path

/-! ## Names as texts -/

/-- Whether a text spells a name. -/
def IsName (s : String) : Prop :=
  s ≠ "" ∧ s ≠ "." ∧ s ≠ ".." ∧ '/' ∉ s.toList

instance : DecidablePred IsName := fun s =>
  inferInstanceAs (Decidable (s ≠ "" ∧ s ≠ "." ∧ s ≠ ".." ∧ '/' ∉ s.toList))

namespace Name

theorem ordinary_encode {s : String} (h : IsName s) :
    encode s ≠ [] ∧ encode s ≠ [dot] ∧ encode s ≠ [dot, dot] ∧ slash ∉ encode s :=
  ⟨fun he => h.1 (encode_injective he), fun he => h.2.1 (encode_injective he),
    fun he => h.2.2.1 (encode_injective he),
    fun hm => h.2.2.2 ((mem_encode_ascii (c := '/') (by decide)).mp hm)⟩

/-- The name that a text spells. -/
def ofText (s : String) (h : IsName s) : Name :=
  ⟨encode s, ordinary_encode h⟩

@[simp] theorem display_ofText {s : String} (h : IsName s) : (ofText s h).display = s :=
  lossy_encode s

theorem ofText_inj {s t : String} {hs : IsName s} {ht : IsName t} :
    ofText s hs = ofText t ht ↔ s = t :=
  ⟨fun h => by rw [← display_ofText hs, h, display_ofText], fun h => by subst h; rfl⟩

/-- What is read as ASCII is what was read, so a name that is read as a text in ASCII is its
octets. -/
theorem bytes_eq_of_display {n : Name} {s : String} (hs : ∀ c ∈ s.toList, c.toNat < 0x80)
    (h : n.display = s) : n.bytes = encode s := by
  subst h
  exact (encode_lossy hs).symm

/-- A name that is read as a text is a name, whatever stands for octets that are no text. -/
theorem isName_display (n : Name) : IsName n.display :=
  ⟨fun h => n.ordinary.1 (n.bytes_eq_of_display (by simp) h),
    fun h => n.ordinary.2.1 (n.bytes_eq_of_display (s := ".") (by simp) h),
    fun h => n.ordinary.2.2.1 (n.bytes_eq_of_display (s := "..") (by simp) h),
    fun h => n.ordinary.2.2.2 (mem_of_mem_lossy (c := '/') (by decide) h)⟩

/-- The name that the text of a name spells. -/
def shown (n : Name) : Name :=
  ofText n.display n.isName_display

@[simp] theorem display_shown (n : Name) : n.shown.display = n.display :=
  display_ofText n.isName_display

theorem shown_inj {n m : Name} : n.shown = m.shown ↔ n.display = m.display :=
  ofText_inj

end Name

/-- A part that spells a name makes the step to it. -/
theorem Path.stepOf_toList {s : String} (h : IsName s) :
    stepOf s.toList = some (.name (.ofText s h)) := by
  rw [stepOf, String.ofList_toList]
  exact step?_bytes (.ofText s h)

/-! The names that stand in several examples. -/

theorem isName_src : IsName "src" := by decide

theorem isName_store : IsName "store" := by decide

theorem isName_e : IsName "e" := by decide

end Depot
