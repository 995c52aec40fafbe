import Depot.Proofs.Procedure

/-!
# Procedures that race

Two procedures race when their calls are made in any order on one world. Each call is one atomic
step, and a schedule says whose turn it is (`Race.run`); a race remembers its calls.

What may be said of a race is said for each racer apart. `Terms` are an invariant of the race and,
for each side, a preorder that says what its calls do to the other. A racer `Abides` by them if each
of its calls keeps the invariant and stays within the preorder of its side, whatever the other does
between two calls within its own. The rules follow the way in which procedures are put together.

* `Race.run_eq_done`: **if both racers abide by the terms, then what each of them establishes holds
  in the end of every race.**
* `Procedure.Abides.alone`: where only one side has made calls since one of its own, that side has
  done what it does alone.

Out of scope: more than two racers, and calls that take several steps.
-/

namespace Depot

/-- One of two racers. -/
inductive Side where
  | left
  | right
  deriving DecidableEq

/-- The racer on the other side. -/
def Side.other : Side → Side
  | .left => .right
  | .right => .left

theorem Side.other_ne (side : Side) : side.other ≠ side := by
  cases side <;> decide

/-- A call that one of the racers made, with its reply. -/
structure Event where
  side : Side
  call : Call
  reply : call.Reply

/-- A world in a race, with the calls that were made before, the latest first. -/
structure Moment where
  events : List Event
  world : World

namespace Moment

/-- What a call is answered with. -/
def reply (m : Moment) (c : Call) : c.Reply :=
  (World.answer c m.world).1

/-- The moment after a call. -/
def after (m : Moment) (side : Side) (c : Call) : Moment :=
  ⟨⟨side, c, m.reply c⟩ :: m.events, (World.answer c m.world).2⟩

end Moment

/-- What is left of two procedures in a race. -/
structure Race (α β : Type) where
  left : Procedure α
  right : Procedure β
  now : Moment

namespace Race

variable {α β : Type}

/-- A race that begins. -/
def start (p : Procedure α) (q : Procedure β) (w : World) : Race α β :=
  ⟨p, q, ⟨[], w⟩⟩

/-- One racer makes a call, if it is not done. -/
def turn : Side → Race α β → Race α β
  | .left, ⟨.ask c next, q, m⟩ => ⟨next (m.reply c), q, m.after .left c⟩
  | .right, ⟨p, .ask c next, m⟩ => ⟨p, next (m.reply c), m.after .right c⟩
  | _, race => race

/-- The racers take turns as a schedule says. -/
def run (schedule : List Side) (race : Race α β) : Race α β :=
  schedule.foldl (fun race side => race.turn side) race

/-- What the racers give, if both are done. -/
def results? : Race α β → Option (α × β)
  | ⟨.done a, .done b, _⟩ => some (a, b)
  | _ => none

theorem eq_of_results? {race : Race α β} {a : α} {b : β} (h : race.results? = some (a, b)) :
    race = ⟨.done a, .done b, race.now⟩ := by
  unfold results? at h
  split at h
  · obtain ⟨rfl, rfl⟩ := Prod.mk.inj (Option.some.inj h)
    rfl
  · exact nomatch h

end Race

/-! ## Terms -/

/-- From one moment to another only one side made calls, or none did. -/
def Elapsed (side : Side) (m m' : Moment) : Prop :=
  ∃ late, m'.events = late ++ m.events ∧ (∀ e ∈ late, e.side = side) ∧ (late = [] → m' = m)

namespace Elapsed

variable {side : Side} {m m' m'' : Moment}

theorem refl (side : Side) (m : Moment) : Elapsed side m m :=
  ⟨[], rfl, fun _ h => absurd h List.not_mem_nil, fun _ => rfl⟩

theorem trans (h : Elapsed side m m') (h' : Elapsed side m' m'') : Elapsed side m m'' := by
  obtain ⟨late, hevents, hside, hidle⟩ := h
  obtain ⟨late', hevents', hside', hidle'⟩ := h'
  refine ⟨late' ++ late, ?_, fun e he => ?_, fun hnil => ?_⟩
  · rw [hevents', hevents, List.append_assoc]
  · exact (List.mem_append.mp he).elim (hside' e) (hside e)
  · obtain ⟨rfl, rfl⟩ := List.append_eq_nil_iff.mp hnil
    rw [hidle' rfl, hidle rfl]

theorem after (m : Moment) (side : Side) (c : Call) : Elapsed side m (m.after side c) :=
  ⟨[_], rfl, fun _ he => List.mem_singleton.mp he ▸ rfl, nofun⟩

theorem suffix (h : Elapsed side m m') : m.events <:+ m'.events := by
  obtain ⟨late, hevents, -⟩ := h
  exact ⟨late, hevents.symm⟩

/-- The calls of the other side are none, if they are of this side. -/
theorem idle (h : Elapsed side.other m m') : ∃ late, m'.events = late ++ m.events ∧
    ((∀ e ∈ late, e.side = side) → m' = m) := by
  obtain ⟨late, hevents, hothers, hidle⟩ := h
  refine ⟨late, hevents, fun hown => hidle (List.eq_nil_iff_forall_not_mem.mpr fun e he => ?_)⟩
  exact side.other_ne ((hothers e he).symm.trans (hown e he))

end Elapsed

/-- What holds in a race at any time, and what the calls of each side may do. -/
structure Terms where
  inv : Moment → Prop
  does : Side → Moment → Moment → Prop
  preorder : ∀ side, IsPreorder Moment (does side)

attribute [instance] Terms.preorder

namespace Terms

variable (T : Terms) (side : Side)

/-- What happens to a side while it waits for its turn. -/
structure Waits (m m' : Moment) : Prop where
  inv : T.inv m'
  does : T.does side.other m m'
  elapsed : Elapsed side.other m m'

/-- What a side knows is not changed by the other. -/
def Stable (A : Moment → Prop) : Prop :=
  ∀ m m', T.inv m → T.Waits side m m' → A m → A m'

/-- A call keeps the invariant and does what its side may do. -/
structure Admits (m : Moment) (c : Call) : Prop where
  inv : T.inv (m.after side c)
  does : T.does side m (m.after side c)

variable {T side} {m m' m'' : Moment}

theorem stable_const {P : Prop} : T.Stable side fun _ => P :=
  fun _ _ _ _ h => h

namespace Stable

variable {A B : Moment → Prop}

theorem and (ha : T.Stable side A) (hb : T.Stable side B) : T.Stable side fun m => A m ∧ B m :=
  fun m m' hinv hwaits h => ⟨ha m m' hinv hwaits h.1, hb m m' hinv hwaits h.2⟩

theorem given {P : Prop} (ha : T.Stable side A) : T.Stable side fun m => P → A m :=
  fun m m' hinv hwaits h hp => ha m m' hinv hwaits (h hp)

theorem all {ι : Type} {A : ι → Moment → Prop} (ha : ∀ i, T.Stable side (A i)) :
    T.Stable side fun m => ∀ i, A i m :=
  fun m m' hinv hwaits h i => ha i m m' hinv hwaits (h i)

end Stable

theorem Waits.refl (hinv : T.inv m) : T.Waits side m m :=
  ⟨hinv, Std.Refl.refl m, .refl _ m⟩

theorem Waits.trans (h : T.Waits side m m') (h' : T.Waits side m' m'') : T.Waits side m m'' :=
  ⟨h'.inv, IsTrans.trans _ _ _ h.does h'.does, h.elapsed.trans h'.elapsed⟩

end Terms

namespace Procedure

variable {α β : Type} (T : Terms) (side : Side)

/-- Whatever the other side does before each call, a procedure makes the calls that the terms admit,
and in the end `Q` holds of its result. -/
def Safe (Q : α → Moment → Prop) : Procedure α → Moment → Prop
  | .done a, m => ∀ m', T.Waits side m m' → Q a m'
  | .ask c next, m => ∀ m', T.Waits side m m' →
      T.Admits side m' c ∧ (next (m'.reply c)).Safe Q (m'.after side c)

/-- From where `A` holds a procedure makes the calls that the terms admit, and in the end `Q` holds
of its result. -/
def Abides (A : Moment → Prop) (Q : α → Moment → Prop) (p : Procedure α) : Prop :=
  ∀ m, T.inv m → A m → p.Safe T side Q m

variable {T side} {A : Moment → Prop} {Q Q' : α → Moment → Prop} {R : β → Moment → Prop}
  {p : Procedure α} {m m' : Moment}

namespace Safe

theorem wait (h : p.Safe T side Q m) (hm : T.Waits side m m') : p.Safe T side Q m' := by
  cases p with
  | done a => exact fun m'' hwaits => h m'' (hm.trans hwaits)
  | ask c next => exact fun m'' hwaits => h m'' (hm.trans hwaits)

/-- It is enough to be safe when the other side has had its turns. -/
theorem of_wait (h : ∀ m', T.Waits side m m' → p.Safe T side Q m') : p.Safe T side Q m := by
  cases p with
  | done a => exact fun m' hwaits => h m' hwaits m' (.refl hwaits.inv)
  | ask c next => exact fun m' hwaits => h m' hwaits m' (.refl hwaits.inv)

theorem mono (h : p.Safe T side Q m) (hQ : ∀ a m, Q a m → Q' a m) : p.Safe T side Q' m := by
  induction p generalizing m with
  | done a => exact fun m' hwaits => hQ a m' (h m' hwaits)
  | ask c next ih =>
    intro m' hwaits
    obtain ⟨hadmits, hnext⟩ := h m' hwaits
    exact ⟨hadmits, ih _ hnext⟩

theorem bind {f : α → Procedure β} (hp : p.Safe T side Q m)
    (hf : ∀ a, (f a).Abides T side (Q a) R) : (p.bind f).Safe T side R m := by
  induction p generalizing m with
  | done a => exact .of_wait fun m' hwaits => hf a m' hwaits.inv (hp m' hwaits)
  | ask c next ih =>
    intro m' hwaits
    obtain ⟨hadmits, hnext⟩ := hp m' hwaits
    exact ⟨hadmits, ih _ hnext⟩

/-- What grows with the calls stays. -/
theorem frame {F : Moment → Prop} (hF : ∀ m m', m.events <:+ m'.events → F m → F m')
    (h : p.Safe T side Q m) (hf : F m) : p.Safe T side (fun a m => Q a m ∧ F m) m := by
  induction p generalizing m with
  | done a => exact fun m' hwaits => ⟨h m' hwaits, hF m m' hwaits.elapsed.suffix hf⟩
  | ask c next ih =>
    intro m' hwaits
    obtain ⟨hadmits, hnext⟩ := h m' hwaits
    have hf' := hF m m' hwaits.elapsed.suffix hf
    exact ⟨hadmits, ih _ hnext (hF m' _ (Elapsed.after m' side c).suffix hf')⟩

/-- Where the other side makes no call, a procedure does what it does alone. -/
theorem alone (h : p.Safe T side Q m) : p.Safe T side (fun a m' => Q a m' ∧
    ∃ late, m'.events = late ++ m.events ∧
      ((∀ e ∈ late, e.side = side) → m.world.perform p = (a, m'.world))) m := by
  induction p generalizing m with
  | done a =>
    refine fun m' hwaits => ⟨h m' hwaits, ?_⟩
    obtain ⟨late, hevents, hidle⟩ := hwaits.elapsed.idle
    refine ⟨late, hevents, fun hown => ?_⟩
    rw [hidle hown]
    rfl
  | ask c next ih =>
    intro m₁ hwaits
    obtain ⟨hadmits, hnext⟩ := h m₁ hwaits
    refine ⟨hadmits, (ih _ hnext).mono fun a m' ⟨hq, late, hevents, halone⟩ => ⟨hq, ?_⟩⟩
    obtain ⟨before, hbefore, hidle⟩ := hwaits.elapsed.idle
    refine ⟨late ++ ⟨side, c, m₁.reply c⟩ :: before, ?_, fun hown => ?_⟩
    · rw [hevents, Moment.after, hbefore, List.append_assoc]
      rfl
    · have hsame := hidle fun e he => hown e (List.mem_append_right _ (List.mem_cons_of_mem _ he))
      have hrest := halone fun e he => hown e (List.mem_append_left _ he)
      rw [hsame] at hrest
      exact hrest

end Safe

namespace Abides

theorem done {a : α} (hstable : T.Stable side A) (h : ∀ m, T.inv m → A m → Q a m) :
    Abides T side A Q (.done a) :=
  fun m hinv ha m' hwaits => h m' hwaits.inv (hstable m m' hinv hwaits ha)

theorem bind {f : α → Procedure β} (hp : p.Abides T side A Q)
    (hf : ∀ a, (f a).Abides T side (Q a) R) : (p.bind f).Abides T side A R :=
  fun m hinv ha => (hp m hinv ha).bind hf

/-- A call that the terms admit wherever `A` holds. -/
theorem ofCall {c : Call} {Q : c.Reply → Moment → Prop} (hstable : T.Stable side A)
    (hQ : ∀ r, T.Stable side (Q r))
    (h : ∀ m, T.inv m → A m → T.Admits side m c ∧ Q (m.reply c) (m.after side c)) :
    (Procedure.ofCall c).Abides T side A Q := by
  intro m hinv ha m₁ hwaits
  obtain ⟨hadmits, hq⟩ := h m₁ hwaits.inv (hstable m m₁ hinv hwaits ha)
  exact ⟨hadmits, fun m₂ hwaits₂ => hQ _ _ m₂ hadmits.inv hwaits₂ hq⟩

/-- **Where only one side has made calls since one of its own, that side has done what it does
alone.** -/
theorem alone {c : Call} {next : c.Reply → Procedure α} (hstable : T.Stable side A)
    (h : (Procedure.ask c next).Abides T side A Q) :
    (Procedure.ask c next).Abides T side A fun a m' => Q a m' ∧ ∃ m late, T.inv m ∧ A m ∧
      m'.events = late ++ ⟨side, c, m.reply c⟩ :: m.events ∧
      ((∀ e ∈ late, e.side = side) → m.world.perform (.ask c next) = (a, m'.world)) := by
  intro m hinv ha m₁ hwaits
  obtain ⟨hadmits, hnext⟩ := h m hinv ha m₁ hwaits
  refine ⟨hadmits, hnext.alone.mono fun a m' ⟨hq, late, hevents, halone⟩ => ⟨hq, ?_⟩⟩
  exact ⟨m₁, late, hwaits.inv, hstable m m₁ hinv hwaits ha, hevents, halone⟩

end Abides

end Procedure

/-! ## Actions -/

/-- From where `A` holds an action makes the calls that the terms admit, and in the end `Q` holds of
what it gives if it does not fail. -/
def Action.Abides {α : Type} (T : Terms) (side : Side) (A : Moment → Prop) (Q : α → Moment → Prop)
    (x : Action α) : Prop :=
  x.run.Abides T side A fun r m => ∀ a, r = .ok a → Q a m

namespace Action.Abides

variable {α β : Type} {T : Terms} {side : Side} {A : Moment → Prop} {Q : α → Moment → Prop}
  {R : β → Moment → Prop}

/-- What grows with the calls stays. -/
theorem frame {F : Moment → Prop} (hF : ∀ m m', m.events <:+ m'.events → F m → F m')
    {x : Action α} (h : x.Abides T side (fun _ => True) Q) : x.Abides T side F fun _ => F :=
  fun m hinv hf => ((h m hinv trivial).frame hF hf).mono fun _ _ hq _ _ => hq.2

theorem throw {e : StorageError} : (throw e : Action α).Abides T side A Q :=
  fun _ _ _ _ _ _ he => nomatch he

theorem pure {a : α} (hstable : T.Stable side A) (h : ∀ m, T.inv m → A m → Q a m) :
    (pure a : Action α).Abides T side A Q :=
  Procedure.Abides.done hstable fun m hinv ha _ he => Except.ok.inj he ▸ h m hinv ha

theorem check {r : Except StorageError α} (hstable : T.Stable side A)
    (h : ∀ a m, r = .ok a → A m → Q a m) : (check r).Abides T side A Q :=
  Procedure.Abides.done hstable fun m _ ha a he => h a m he ha

theorem bind {x : Action α} {f : α → Action β} (hx : x.Abides T side A Q)
    (hf : ∀ a, (f a).Abides T side (Q a) R) : (x >>= f).Abides T side A R := by
  unfold Abides
  rw [run_bind]
  refine Procedure.Abides.bind hx fun r => ?_
  cases r with
  | ok a => exact fun m hinv ha => hf a m hinv (ha a rfl)
  | error e => exact fun _ _ _ _ _ _ he => nomatch he

theorem tryCatch {x : Action α} {handler : StorageError → Action α}
    (hQ : ∀ a, T.Stable side (Q a)) (hx : x.Abides T side A Q)
    (hh : ∀ e, (handler e).Abides T side (fun _ => True) Q) :
    (tryCatch x handler).Abides T side A Q := by
  refine Procedure.Abides.bind hx fun r => ?_
  cases r with
  | ok a =>
    intro m hinv ha m' hwaits b he
    exact Except.ok.inj he ▸ hQ a m m' hinv hwaits (ha a rfl)
  | error e => exact fun m hinv _ => hh e m hinv trivial

theorem ofReply {ε : Type} {fail : ε → StorageError} {p : Procedure (Except ε α)}
    {Q' : Except ε α → Moment → Prop} (hQ : ∀ a, T.Stable side (Q a)) (h : p.Abides T side A Q')
    (hok : ∀ a m, Q' (.ok a) m → Q a m) : (ofReply fail p).Abides T side A Q := by
  refine Procedure.Abides.bind h fun r m hinv ha m' hwaits a he => ?_
  obtain rfl := mapError_eq_ok.mp he
  exact hQ a m m' hinv hwaits (hok a m ha)

/-- What is concluded from a reply is known if it follows from what is known of the reply. -/
theorem concluding {c : Call} {g : c.Reply → Except StorageError α} {Q' : c.Reply → Moment → Prop}
    (hQ : ∀ a, T.Stable side (Q a)) (h : (Procedure.ofCall c).Abides T side A Q')
    (hok : ∀ reply a m, g reply = .ok a → Q' reply m → Q a m) :
    (concluding c g).Abides T side A Q := by
  refine Procedure.Abides.bind h fun reply m hinv ha m' hwaits a he => ?_
  exact hQ a m m' hinv hwaits (hok reply a m he ha)

theorem ofProcedure {p : Procedure α} (hQ : ∀ a, T.Stable side (Q a)) (h : p.Abides T side A Q) :
    (ofProcedure p).Abides T side A Q := by
  refine Procedure.Abides.bind h fun a m hinv ha m' hwaits b he => ?_
  exact Except.ok.inj he ▸ hQ a m m' hinv hwaits ha

end Action.Abides

/-! ## Races -/

namespace Race

variable {α β : Type} {T : Terms} {Q : α → Moment → Prop} {Q' : β → Moment → Prop}
  {race : Race α β}

/-- Both racers are safe. -/
structure Sound (T : Terms) (Q : α → Moment → Prop) (Q' : β → Moment → Prop) (race : Race α β) :
    Prop where
  inv : T.inv race.now
  left : race.left.Safe T .left Q race.now
  right : race.right.Safe T .right Q' race.now

theorem Sound.turn (h : race.Sound T Q Q') (side : Side) : (race.turn side).Sound T Q Q' := by
  obtain ⟨p, q, m⟩ := race
  obtain ⟨hinv, hleft, hright⟩ := h
  cases side with
  | left =>
    cases p with
    | done a => exact ⟨hinv, hleft, hright⟩
    | ask c next =>
      obtain ⟨hadmits, hnext⟩ := hleft m (.refl hinv)
      exact ⟨hadmits.inv, hnext, hright.wait ⟨hadmits.inv, hadmits.does, .after m .left c⟩⟩
  | right =>
    cases q with
    | done b => cases p <;> exact ⟨hinv, hleft, hright⟩
    | ask c next =>
      obtain ⟨hadmits, hnext⟩ := hright m (.refl hinv)
      have hwaits : T.Waits .left m (m.after .right c) :=
        ⟨hadmits.inv, hadmits.does, .after m .right c⟩
      cases p <;> exact ⟨hadmits.inv, hleft.wait hwaits, hnext⟩

theorem Sound.run (h : race.Sound T Q Q') (schedule : List Side) :
    (race.run schedule).Sound T Q Q' := by
  induction schedule generalizing race with
  | nil => exact h
  | cons side rest ih => exact ih (h.turn side)

/-- **What the racers establish holds in the end of every race.** -/
theorem run_eq_done {A B : Moment → Prop} {p : Procedure α} {q : Procedure β} {w : World}
    (hp : p.Abides T .left A Q) (hq : q.Abides T .right B Q') (hinv : T.inv ⟨[], w⟩)
    (ha : A ⟨[], w⟩) (hb : B ⟨[], w⟩) {schedule : List Side} {a : α} {b : β} {m : Moment}
    (h : (start p q w).run schedule = ⟨.done a, .done b, m⟩) : T.inv m ∧ Q a m ∧ Q' b m := by
  have hsound : (start p q w).Sound T Q Q' := ⟨hinv, hp _ hinv ha, hq _ hinv hb⟩
  have hend := hsound.run schedule
  rw [h] at hend
  exact ⟨hend.inv, hend.left m (.refl hend.inv), hend.right m (.refl hend.inv)⟩

end Race

-- A rule that is applied to a procedure is not to run it.
attribute [irreducible] Procedure.Safe

/-! ## Calls -/

/-- A call that changes no volume. -/
def Call.Quiet : Call → Prop
  | .stat _ | .walk _ | .openFile _ | .mode _ | .read _ | .nonce => True
  | _ => False

namespace Moment

variable (m : Moment) (side : Side)

theorem volume_after_quiet {c : Call} (hc : c.Quiet) :
    (m.after side c).world.volume = m.world.volume := by
  cases c <;> first | exact hc.elim | rfl

theorem volume_makeDirectories (p : Path) :
    (m.after side (.makeDirectories p)).world.volume = (m.world.volume.makeDirectories p).2 := rfl

theorem create_cases (p : Path) :
    (∃ k, m.reply (.create p) = .error k ∧
      (m.after side (.create p)).world.volume = m.world.volume) ∨
    ∃ h, m.reply (.create p) = .ok h ∧
      m.world.volume.create p = .ok (h, (m.after side (.create p)).world.volume) := by
  unfold reply after
  rw [World.volume_create, World.answer]
  rcases m.world.volume.create p with k | ⟨h, v⟩
  · exact .inl ⟨k, rfl, rfl⟩
  · exact .inr ⟨h, rfl, rfl⟩

theorem volume_write (h : Handle) (content : Content) :
    (m.after side (.write h content)).world.volume = (m.world.volume.writeAt h content).2 := rfl

theorem volume_copy (h h' : Handle) :
    (m.after side (.copy h h')).world.volume = (m.world.volume.copyAt h h').2 := rfl

theorem rename_cases (p q : Path) :
    (∃ k, m.reply (.rename p q) = .error k ∧
      (m.after side (.rename p q)).world.volume = m.world.volume) ∨
    m.reply (.rename p q) = .ok () ∧
      m.world.volume.rename p q = .ok (m.after side (.rename p q)).world.volume := by
  unfold reply after
  rw [World.answer, World.volume_changing]
  cases m.world.volume.rename p q with
  | error k => exact .inl ⟨k, rfl, rfl⟩
  | ok v => exact .inr ⟨rfl, rfl⟩

end Moment

end Depot
